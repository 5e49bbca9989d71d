import Sol8.Os.CyclicSoftintModify

/-! Every expiry of a cyclic is handled once (`os/cyclic.c`). -/

namespace Sol8.Os.CyclicSoftint

open Function Sol8.Lib List LevelState

variable {κ : Type} {s s' : State κ} {c c' : Shared κ} {v v' : LevelState κ} {w w' : ℕ → ℕ} {l : Level} {i : ℕ}

section Expire

attribute [local simp] Pc.called Pc.fetched Pc.onEntry Pc.dead Pc.past Pc.ended Pc.reading Pc.hasSoft
  Pc.hasArray Pc.reports

/-! ### Expiry -/

theorem SharedOk.lt_size (h : SharedOk c w) (hw : w i ≠ 0) : i < c.size := by
  cases hf : (c.cur i).free with
  | false =>
    by_contra hi
    rw [h.range i (not_lt.mp hi)] at hf
    cases hf
  | true => exact (h.removeWait i (h.freed i hf hw)).2

theorem LevelOk.room (h : LevelOk c v w l) (hs : SharedOk c w) (hi : i ∉ v.live) (hlt : i < c.size) :
    v.live.length < c.size := by
  have hnd : (i :: v.live).Nodup := nodup_cons.mpr ⟨hi, h.nodup⟩
  have hsub : i :: v.live ⊆ List.range c.size := by
    intro j hj
    rw [mem_range]
    rcases mem_cons.mp hj with rfl | hj
    · exact hlt
    · exact hs.lt_size ((h.mem_live j).mp hj).1
  have hle := (subperm_of_subset hnd hsub).length_le
  rwa [length_range] at hle

theorem enqueue_other {sb : SoftBuf} {b : Bool} (hb : b ≠ sb.hard) : (sb.enqueue i).buf b = sb.buf b :=
  update_of_ne hb ..

theorem enqueue_hard (sb : SoftBuf) (i : ℕ) : (sb.enqueue i).buf sb.hard = { sb.buf sb.hard with
    buf := update (sb.buf sb.hard).buf ((sb.buf sb.hard).prodndx &&& (sb.buf sb.hard).sizemask) i
    prodndx := (sb.buf sb.hard).prodndx + 1 } := update_self ..

theorem enqueue_index (sb : SoftBuf) (i : ℕ) (b : Bool) : ((sb.enqueue i).buf b).consndx = (sb.buf b).consndx ∧
      ((sb.enqueue i).buf b).sizemask = (sb.buf b).sizemask ∧
      (sb.buf b).prodndx ≤ ((sb.enqueue i).buf b).prodndx := by
  by_cases hb : b = sb.hard
  · rw [hb, enqueue_hard]
    exact ⟨rfl, rfl, Nat.le_succ _⟩
  · rw [enqueue_other hb]
    exact ⟨rfl, rfl, le_rfl⟩

theorem PcBuffer.entries_push {b : PcBuffer} {d k : ℕ} (hm : b.sizemask + 1 = 2 ^ k)
    (hle : b.consndx + d ≤ b.prodndx) (hlen : (b.entries d).length < 2 ^ k) : PcBuffer.entries { b with
      buf := update b.buf (b.prodndx &&& b.sizemask) i, prodndx := b.prodndx + 1 } d = b.entries d ++ [i] := by
  rw [PcBuffer.entries, Ring.length_slice] at hlen
  exact Ring.slice_push hm hle (by omega) i

section

variable (h : LevelOk c v w l) (hs : SharedOk c w) (hi : i ∉ v.live) (hlt : i < c.size)
include h hs hi hlt

theorem LevelOk.enqueue_live (v' : LevelState κ) (hv' : v'.softbuf = v.softbuf.enqueue i) (hf : v'.frame = v.frame) :
    v'.live = v.live ++ [i] := by
  have hlen := h.room hs hi hlt
  obtain ⟨k, hk⟩ := hs.size
  have hm := h.mask
  rw [hk] at hm hlen
  rw [live, length_append] at hlen
  have hsf : v'.softbuf.soft = v.softbuf.soft := by rw [hv']; rfl
  have hh : v'.softbuf.hard = v.softbuf.hard := by rw [hv']; rfl
  rw [live, live, softPart, hardPart, hsf, hh, hf, hv']
  by_cases he : v.softbuf.soft = v.softbuf.hard
  · have hle : (v.softbuf.buf v.softbuf.hard).consndx + (if v.frame.pc.dead then 1 else 0) ≤
        (v.softbuf.buf v.softbuf.hard).prodndx := by
      rw [← he]
      split_ifs with hd
      · exact h.frame.entry (.inr hd)
      · exact h.cons_le _
    rw [if_pos he, hardPart, if_pos he, append_nil, append_nil, softPart, he, enqueue_hard]
    rw [softPart, he] at hlen
    exact PcBuffer.entries_push hm hle (by omega)
  · rw [if_neg he, enqueue_other he, enqueue_hard, hardPart, if_neg he, append_assoc]
    rw [hardPart, if_neg he] at hlen
    congr 1
    exact PcBuffer.entries_push hm (h.cons_le _) (by omega)

/-- A pend count goes from 0 to 1, and the cyclic into the buffer. -/
theorem FrameOk.enqueue : FrameOk c { v with softbuf := v.softbuf.enqueue i, posted := true } w l := by
  set v' : LevelState κ := { v with softbuf := v.softbuf.enqueue i, posted := true } with hv'
  have hf := h.frame
  have hlen := h.room hs hi hlt
  obtain ⟨k, hk⟩ := hs.size
  have hm := h.mask
  have hsf : v'.softbuf.soft = v.softbuf.soft := rfl
  have hh : v'.softbuf.hard = v.softbuf.hard := rfl
  have hd (b : Bool) := enqueue_index v.softbuf i b
  have hr (he : v.softbuf.soft ≠ v.softbuf.hard) : v'.softPart = v.softPart := by
    simp only [softPart, hv']
    rw [show (v.softbuf.enqueue i).soft = v.softbuf.soft from rfl, enqueue_other he]
  refine { hf with array := ?_, cons := ?_, entry := ?_, fetched := ?_, past := ?_, check := ?_, ended := ?_ }
  · exact fun hp => hf.array hp
  · intro hp
    rw [(hd _).1, (hd _).2.1]
    exact hf.cons hp
  · intro hp
    rw [(hd _).1]
    exact lt_of_lt_of_le (hf.entry hp) (hd _).2.2
  · intro hp
    rw [hf.fetched hp, hsf]
    obtain ⟨hn, hsz⟩ := hf.cons (by
      change v.frame.pc.fetched = true at hp
      simp only [Pc.reading, Pc.onEntry, hp, Bool.or_true, Bool.true_or])
    by_cases he : v.softbuf.soft = v.softbuf.hard
    · -- the entry at hand is not overwritten
      have hlt' := hf.entry (.inl (Pc.onEntry_of_fetched hp))
      have hl := h.live_cons (Pc.onEntry_of_fetched hp)
      have hl' : v.live.length = (v.softbuf.buf v.softbuf.soft).prodndx - (v.softbuf.buf v.softbuf.soft).consndx := by
        rw [hl, length_cons, length_append, hardPart, if_pos he, PcBuffer.entries, Ring.length_slice, length_nil]
        omega
      rw [hn, hsz, he, enqueue_hard]
      rw [he] at hlt' hl'
      rw [hk] at hm hlen
      dsimp only
      rw [update_of_ne (Ring.and_mask_ne hm hlt' (by omega))]
    · rw [enqueue_other he]
  · intro hp
    obtain ⟨hne, hnil⟩ := hf.past hp
    exact ⟨hne, (hr hne).trans hnil⟩
  · intro hp
    have hc := hf.check hp
    rw [hsf, hh]
    split_ifs at hc ⊢ with he
    · exact fun _ => rfl
    · exact (hr he).trans hc
  · exact fun _ _ => rfl

end

variable [DecidableEq κ]

def Shared.expired (c : Shared κ) (i n : ℕ) : Shared κ :=
  { c.setPend c.cyclics i n with
    expires := update c.expires (c.cur i).handler (c.expires (c.cur i).handler + 1) }

theorem SharedOk.expired (h : SharedOk c w) (hf : (c.cur i).free = false) {n : ℕ} (hn : n < 2 ^ 31) :
    SharedOk (c.expired i n) (update w i n) := by
  have h' := h.setPend hf hn
  refine { h' with gone := ?_ }
  intro k hk
  have hh : Held (c.setPend c.cyclics i n) (update w i n) i := .inl ((setPend_free c i n i).trans hf)
  have hne : k ≠ (c.cur i).handler := fun he => hk i hh ((setPend_handler c i n i).trans he.symm)
  have := h'.gone k hk
  simp only [Shared.expired, update_of_ne hne]
  exact this

theorem SameFor.expired (h : SharedOk c w) (hf : (c.cur i).free = false) (hl : (c.cur i).level ≠ l) {n : ℕ} :
    SameFor c w (c.expired i n) (update w i n) l :=
  { (SameFor.setPend hl : SameFor c w (c.setPend c.cyclics i n) (update w i n) l) with
    expires := fun j hj hjl => by
      have hne : (c.cur j).handler ≠ (c.cur i).handler := fun he =>
        hl (h.inj j i hj (.inl hf) he ▸ hjl)
      simp only [Shared.expired, update_of_ne hne] }

theorem LevelOk.expired (h : LevelOk c v w l) (hs : SharedOk c w) (hf : (c.cur i).free = false)
    (hl : (c.cur i).level = l) (hfm : FrameOk c v' w l) (hr : v'.frame = v.frame)
    (hsf : v'.softbuf.soft = v.softbuf.soft) (hh : v'.softbuf.hard = v.softbuf.hard)
    (hms : ∀ b, (v'.softbuf.buf b).sizemask = (v.softbuf.buf b).sizemask)
    (hle : ∀ b, (v'.softbuf.buf b).consndx ≤ (v'.softbuf.buf b).prodndx)
    (hb : v.softbuf.soft = v.softbuf.hard → v'.softbuf.buf (!v.softbuf.hard) = v.softbuf.buf (!v.softbuf.hard))
    (hn : v'.live.Nodup) (hv : ∀ j, j ∈ v'.live ↔ j ∈ v.live ∨ j = i) :
    LevelOk (c.expired i (w i + 1)) v' (update w i (w i + 1)) l := by
  have hne {j : ℕ} (hm : c.modifier = .removeWait j) : j ≠ i := by
    rintro rfl
    have := (hs.removeWait _ hm).1
    rw [hf] at this
    cases this
  refine ⟨?_, ?_, hle, ?_, ?_, hn, ?_, ?_, ?_⟩
  · have ht : FrameOk (c.setPend c.cyclics i (w i + 1)) v' (update w i (w i + 1)) l := by
      refine hfm.setPend fun hp => ?_
      rw [update_of_ne (hne (hfm.removing hp).1)]
    exact { ht with }
  · rw [hh, hms]
    exact h.mask
  · rw [hsf, hh]
    exact h.agree
  · intro hm
    rw [hh, hb]
    · exact h.fresh hm
    · by_contra hnt
      have := h.agree hnt
      rw [show c.modifier = .expand from hm] at this
      cases this
  · intro j
    change j ∈ v'.live ↔ _ ∧ ((c.setPend c.cyclics i (w i + 1)).cur j).level = l ∧ _
    rw [hv, h.mem_live, setPend_level, hr]
    by_cases hj : j = i
    · subst hj
      simp only [or_true, update_self, ne_eq, Nat.add_eq_zero_iff, one_ne_zero, and_false, not_false_eq_true,
        hl, true_and, true_iff, not_and]
      rintro hp rfl
      exact hne (h.frame.removing (.inl hp)).1 rfl
    · simp [hj]
  · intro j hm hjl hw
    rw [update_of_ne (hne hm)] at hw ⊢
    rw [hr]
    refine h.removed j hm ?_ hw
    rwa [show ((c.expired i (w i + 1)).cur j).level = _ from setPend_level c i _ j] at hjl
  · intro j hj hjl
    rw [show ((c.expired i (w i + 1)).cur j).level = _ from setPend_level c i _ j] at hjl
    rw [show ((c.expired i (w i + 1)).cur j).handler = _ from setPend_handler c i _ j]
    have ha : v'.ahead j = v.ahead j := by simp only [ahead, hr]
    rw [ha]
    change c.calls _ + _ = update c.expires _ _ _ + _
    by_cases he : j = i
    · subst he
      have hc := h.account j (.inl hf) hjl
      rw [update_self, update_self]
      omega
    · have hhl : Held c w j := by
        rwa [Held, show ((c.expired i (w i + 1)).cur j).free = _ from setPend_free c i _ j, update_of_ne he] at hj
      have hc := h.account j hhl hjl
      rw [update_of_ne he, update_of_ne fun hk => he (hs.inj j i hhl (.inl hf) hk)]
      exact hc

theorem bumpPend_eq {p : ℕ} (h : p < 2 ^ 31) : bumpPend p = p + 1 := by
  have hmod : (p + 1) % 2 ^ 32 = p + 1 := Nat.mod_eq_of_lt (by omega)
  rw [bumpPend, hmod, if_neg (Nat.succ_ne_zero p)]

theorem Inv.expire (h : Inv s w) (hf : (s.shared.cur i).free = false) (hsm : (s.shared.cur i).pend + 1 < 2 ^ 31) :
    Inv (s.cyclicExpire i) (update w i (w i + 1)) := by
  set c := s.shared
  set l := (c.cur i).level
  have hs := h.shared
  have hv := h.level l
  have ha : w i = (c.cur i).pend := hs.active i hf
  have hn : (if (c.cur i).pend = 0 then 1 else bumpPend (c.cur i).pend) = w i + 1 := by
    by_cases h0 : (c.cur i).pend = 0
    · rw [if_pos h0, ha, h0]
    · rw [if_neg h0, bumpPend_eq (hs.small.2 i), ha]
  have hex : s.cyclicExpire i = ⟨c.expired i (w i + 1), update s.lev l { s.lev l with
      softbuf := if (c.cur i).pend = 0 then (s.lev l).softbuf.enqueue i else (s.lev l).softbuf
      posted := true }⟩ := by
    rw [← hn]
    rfl
  have hne (j : ℕ) (hm : c.modifier = .removeWait j) : j ≠ i := by
    rintro rfl
    have := (hs.removeWait _ hm).1
    rw [hf] at this
    cases this
  rw [hex]
  refine h.ofLevel (hs.expired hf (ha ▸ hsm)) ?_ (.expired hs hf fun he => l.other_ne he.symm) ?_
  · by_cases h0 : (c.cur i).pend = 0
    · have hi : i ∉ (s.lev l).live := fun hi => ((hv.mem_live i).mp hi).1 (ha.trans h0)
      have hsz : i < c.size := by
        by_contra hge
        rw [hs.range i (not_lt.mp hge)] at hf
        cases hf
      rw [if_pos h0]
      have hl := hv.enqueue_live hs hi hsz
        { s.lev l with softbuf := (s.lev l).softbuf.enqueue i, posted := true } rfl rfl
      refine hv.expired hs hf rfl (.enqueue hv hs hi hsz) rfl rfl rfl ?_ ?_ ?_ ?_ ?_
      · exact fun b => (enqueue_index _ i b).2.1
      · intro b
        obtain ⟨hc, -, hr⟩ := enqueue_index (s.lev l).softbuf i b
        rw [hc]
        exact (hv.cons_le b).trans hr
      · exact fun _ => enqueue_other (by simp)
      · rw [hl]
        exact hv.nodup.append (nodup_singleton i) (by simpa using hi)
      · intro j
        rw [hl, mem_append, mem_singleton]
    · rw [if_neg h0]
      refine hv.expired hs hf rfl hv.post.frame rfl rfl rfl (fun _ => rfl) hv.cons_le (fun _ => rfl)
        hv.nodup fun j => ?_
      change j ∈ (s.lev l).live ↔ _
      refine ⟨.inl, fun hj => hj.elim id ?_⟩
      rintro rfl
      rw [hv.mem_live]
      refine ⟨fun hw => h0 (ha.symm.trans hw), rfl, fun hp => ?_⟩
      exact hne _ (hv.frame.removing (.inl hp.1)).1 hp.2
  · refine (h.modify_level l).congr rfl rfl rfl rfl (fun j hm _ => update_of_ne (hne j hm) ..) ?_ ?_
    · split_ifs <;> rfl
    · rfl

end Expire

variable [DecidableEq κ]

/-! ### Runs -/

namespace State

variable (s : State κ)

/-- What the callers keep to: the pend counts stay small, and a handler with its argument names one
cyclic. -/
def Allowed : Event κ → Prop
  | .expire ndx => (s.shared.cur ndx).pend + 1 < 2 ^ 31
  | .add _ _ handler => ∀ j < s.shared.size, (s.shared.cur j).free = false → (s.shared.cur j).handler ≠ handler
  | _ => True

instance : ∀ e : Event κ, Decidable (s.Allowed e)
  | .expire _ => inferInstanceAs (Decidable (_ < _))
  | .add _ _ handler => inferInstanceAs (Decidable (∀ j < s.shared.size,
      (s.shared.cur j).free = false → (s.shared.cur j).handler ≠ handler))
  | .expand | .expandXcall | .expandDone | .remove _ | .removeXcall | .removeDone | .softint _ | .step _ =>
    inferInstanceAs (Decidable True)

def Step (s s' : State κ) : Prop := ∃ e, s.Allowed e ∧ s.exec e = some s'

/-- A step in which no soft interrupt loses an entry to a resize. -/
def SafeStep (s s' : State κ) : Prop :=
  ∃ e, s.Allowed e ∧ (e = .expandXcall → SafeToExpand s) ∧ s.exec e = some s'

/-- A configured CPU: nothing is pending, and no soft interrupt runs. -/
structure Start : Prop where
  size : ∃ k, s.shared.size = 2 ^ k
  range : ∀ i, s.shared.size ≤ i → (s.shared.cur i).free = true
  pend : ∀ i, (s.shared.cur i).pend = 0
  inj : ∀ i j, (s.shared.cur i).free = false → (s.shared.cur j).free = false →
    (s.shared.cur i).handler = (s.shared.cur j).handler → i = j
  online : s.shared.cypState = .online ∧ s.shared.modifier = .idle
  wait : s.shared.modifyWait = 0 ∧ s.shared.rpend = 0
  counts : ∀ k, s.shared.expires k = 0 ∧ s.shared.calls k = 0
  idle : ∀ l, (s.lev l).frame.pc = .idle
  soft : ∀ l, (s.lev l).softbuf.soft = (s.lev l).softbuf.hard
  mask : ∀ l, ((s.lev l).softbuf.buf (s.lev l).softbuf.hard).sizemask + 1 = s.shared.size
  empty : ∀ l b, ((s.lev l).softbuf.buf b).consndx = ((s.lev l).softbuf.buf b).prodndx

/-- No soft interrupt runs or is posted, and no resize or removal is under way. -/
def Drained : Prop :=
  s.shared.modifier = .idle ∧ ∀ l, (s.lev l).frame.pc = .idle ∧ (s.lev l).posted = false

def OneToOne : Prop :=
  (∀ k, s.shared.calls k ≤ s.shared.expires k) ∧ (s.Drained → ∀ k, s.shared.calls k = s.shared.expires k)

end State

omit [DecidableEq κ] in
theorem State.Start.inv (h : s.Start) : Inv s fun _ => 0 := by
  have hl (l : Level) : (s.lev l).live = [] := by
    have hsf : (s.lev l).softPart = [] := by
      rw [softPart, h.idle l]
      exact Ring.slice_eq_nil_iff.mpr (h.empty l _).ge
    rw [live, hsf, hardPart, if_pos (h.soft l), append_nil]
  have hh {i : ℕ} (hi : Held s.shared (fun _ => 0) i) : (s.shared.cur i).free = false :=
    hi.resolve_right (not_not.mpr rfl)
  obtain ⟨ht, hm⟩ := h.online
  obtain ⟨hwt, hr⟩ := h.wait
  refine ⟨?_, fun l => ?_, ?_⟩
  · refine ⟨h.size, h.range, fun i _ => h.pend i, fun i _ => (h.pend i).symm, fun i _ hw => absurd rfl hw,
      fun i j hi hj => h.inj i j (hh hi) (hh hj), ?_, ?_, ?_, ?_, fun _ => hr, ?_, ?_⟩
    · exact fun k _ => (h.counts k).2.trans (h.counts k).1.symm
    · rw [ht, hm]
      rfl
    · simp [hm]
    · simp [hm]
    · rw [hr]
      exact Nat.two_pow_pos _
    · intro i
      rw [h.pend]
      exact Nat.two_pow_pos _
  · have hpc := h.idle l
    have hf : FrameOk s.shared (s.lev l) (fun _ => 0) l := by
      constructor
      case ended => exact fun _ hne => absurd (hl l) hne
      all_goals simp [hpc, Pc.called, Pc.fetched, Pc.onEntry, Pc.dead, Pc.past, Pc.reading, Pc.hasSoft,
        Pc.hasArray, Pc.reports]
    refine ⟨hf, h.mask l, fun b => (h.empty l b).le, fun hne => absurd (h.soft l) hne, ?_, ?_, ?_, ?_, ?_⟩
    · simp [hm]
    · rw [hl]
      exact nodup_nil
    · simp [hl]
    · simp [hm]
    · intro i _ _
      rw [(h.counts _).1, (h.counts _).2, ahead, hpc]
      rfl
  · simpa [ModifyOk, hm] using hwt

theorem Inv.exec (h : Inv s w) {e : Event κ} (ha : s.Allowed e) (hsf : e = .expandXcall → SafeToExpand s)
    (he : s.exec e = some s') : ∃ w', Inv s' w' := by
  cases e with simp only [State.exec] at he
  | expire ndx =>
    split_ifs at he with hf
    cases he
    exact ⟨_, h.expire (by simpa using hf) ha⟩
  | add ndx level handler =>
    split_ifs at he with hc
    cases he
    refine ⟨w, h.add hc.1 hc.2.2 (fun j hj => ha j ?_ hj) hc.2.1⟩
    by_contra hge
    rw [h.shared.range j (not_lt.mp hge)] at hj
    cases hj
  | expand =>
    split_ifs at he with hm
    cases he
    exact ⟨w, h.expand hm⟩
  | expandXcall =>
    split_ifs at he with hm
    cases he
    exact ⟨w, h.expandXcall hm (hsf rfl)⟩
  | expandDone =>
    split_ifs at he with hc
    cases he
    exact ⟨w, h.expandDone hc.1 hc.2⟩
  | remove ndx =>
    split_ifs at he with hc
    cases he
    exact ⟨w, h.remove hc.1 (by simpa using hc.2)⟩
  | removeXcall =>
    split at he
    case h_1 ndx hm =>
      cases he
      exact ⟨w, h.removeXcall hm⟩
    case h_2 => cases he
  | removeDone =>
    split at he
    case h_1 ndx hm =>
      split at he <;> rename_i hc <;> cases he
      · exact ⟨w, h.removeDone hm hc⟩
    case h_2 => cases he
  | softint l =>
    split_ifs at he with hpc
    cases he
    exact ⟨w, h.softint hpc⟩
  | step l => exact h.step he

omit [DecidableEq κ] in
theorem Inv.calls_le (h : Inv s w) (k : κ) : s.shared.calls k ≤ s.shared.expires k := by
  by_cases hk : ∃ i, Held s.shared w i ∧ (s.shared.cur i).handler = k
  · obtain ⟨i, hi, rfl⟩ := hk
    have hl := h.level (s.shared.cur i).level
    have hac := hl.account i hi rfl
    have ha : (s.lev (s.shared.cur i).level).ahead i ≤ w i := by
      unfold ahead
      split_ifs with hc
      · have := (hl.cyclic_owed (Pc.fetched_of_called hc.1)).1
        rw [hc.2] at this
        omega
      · exact Nat.zero_le _
    omega
  · push Not at hk
    exact (h.shared.gone k hk).le

omit [DecidableEq κ] in
theorem Inv.calls_eq (h : Inv s w) (hd : s.Drained) (k : κ) : s.shared.calls k = s.shared.expires k := by
  by_cases hk : ∃ i, Held s.shared w i ∧ (s.shared.cur i).handler = k
  · obtain ⟨i, hi, rfl⟩ := hk
    have hl := h.level (s.shared.cur i).level
    obtain ⟨hpc, hp⟩ := hd.2 (s.shared.cur i).level
    have hc := hl.account i hi rfl
    have ha : (s.lev (s.shared.cur i).level).ahead i = 0 := by
      rw [ahead, hpc]
      rfl
    have hw : w i = 0 := by
      by_contra hw
      have hmem := (hl.mem_live i).mpr ⟨hw, rfl, by simp [hpc]⟩
      have := hl.frame.ended (by rw [hpc]; rfl) (ne_nil_of_mem hmem)
      rw [hp] at this
      cases this
    omega
  · push Not at hk
    exact h.shared.gone k hk

theorem inv_of_safe (h : Reachable State.Start State.SafeStep s) : ∃ w, Inv s w := by
  refine h.invariant (P := fun s => ∃ w, Inv s w) (fun s hs => ⟨_, hs.inv⟩) ?_
  rintro s s' ⟨w, hw⟩ ⟨e, ha, hf, he⟩
  exact hw.exec ha hf he

/-- Every expiry is handled once, if no resize comes between finding a buffer empty and looking at
`cys_hard`. -/
theorem oneToOne_of_safe (h : Reachable State.Start State.SafeStep s) : s.OneToOne := by
  obtain ⟨w, hw⟩ := inv_of_safe h
  exact ⟨hw.calls_le, hw.calls_eq⟩

/-! ### A resize that loses an entry -/

def oneCyclic : State Unit where
  shared :=
    { mem := fun g i => ⟨.low, 0, (), !(g = 0 && i = 0)⟩
      cyclics := 0
      size := 1
      cypState := .online
      rpend := 0
      modifyLevels := 0
      modifyWait := 0
      modifier := .idle
      expires := fun _ => 0
      calls := fun _ => 0 }
  lev := fun _ =>
    { softbuf := ⟨false, false, fun _ => ⟨fun _ => 0, 0, 0, 0⟩⟩
      frame := ⟨.idle, 0, false, 0, 0, false, (0, 0), (), 0, false, 0⟩
      posted := false }

theorem start_oneCyclic : oneCyclic.Start where
  size := ⟨0, rfl⟩
  range i hi := by
    have : i ≠ 0 := Nat.ne_of_gt hi
    simp [oneCyclic, Shared.cur, this]
  pend _ := rfl
  inj i j hi hj _ := by
    simp [oneCyclic, Shared.cur] at hi hj
    rw [hi, hj]
  online := ⟨rfl, rfl⟩
  wait := ⟨rfl, rfl⟩
  counts _ := ⟨rfl, rfl⟩
  idle _ := rfl
  soft _ := rfl
  mask _ := rfl
  empty _ _ := rfl

/-- The cyclic expires, and the CPU is resized, after the soft interrupt of the low level has found
its buffer empty and before it looks at `cys_hard`. -/
def expandAfterTest : List (Event Unit) :=
  Event.softint Level.low :: List.replicate 4 (Event.step Level.low) ++ [Event.expire 0, Event.expand, Event.expandXcall] ++
    List.replicate 11 (Event.step Level.low) ++ Event.softint Level.lock :: List.replicate 15 (Event.step Level.lock) ++
    Event.expandDone :: Event.softint Level.low :: List.replicate 5 (Event.step Level.low)

instance (s : State κ) : Decidable s.Drained :=
  decidable_of_iff (s.shared.modifier = .idle ∧ ((s.lev .low).frame.pc = .idle ∧ (s.lev .low).posted = false) ∧
      (s.lev .lock).frame.pc = .idle ∧ (s.lev .lock).posted = false)
    ⟨fun h => ⟨h.1, fun l => l.casesOn h.2.1 h.2.2⟩, fun h => ⟨h.1, h.2 .low, h.2 .lock⟩⟩

/-- The end of the run: all is drained, and the expiry has not been handled. -/
theorem oneToOne_fails_expandAfterTest : ∃ s : State Unit, Reachable State.Start State.Step s ∧
    s.Drained ∧ s.shared.expires () = 1 ∧ s.shared.calls () = 0 ∧ ¬ s.OneToOne := by
  have hrn : (runList (fun s e => if s.Allowed e then s.exec e else none) oneCyclic expandAfterTest).map
      (fun s => (decide s.Drained, s.shared.expires (), s.shared.calls ())) = some (true, 1, 0) := by
    decide
  obtain ⟨s, hs, hn⟩ := Option.map_eq_some_iff.mp hrn
  simp only [Prod.mk.injEq, decide_eq_true_eq] at hn
  obtain ⟨hd, hex, hc⟩ := hn
  have hr : Reachable State.Start State.Step s := by
    refine Reachable.runList (fun s e s' he => ?_) (.start start_oneCyclic) hs
    split_ifs at he with ha
    exact ⟨e, ha, he⟩
  refine ⟨s, hr, hd, hex, hc, fun h => ?_⟩
  have := h.2 hd ()
  omega

instance (s : State κ) : Decidable (SafeToExpand s) :=
  let safe (l : Level) : Prop := (s.lev l).frame.pc = .check →
    ((s.lev l).softbuf.buf (s.lev l).softbuf.soft).consndx = ((s.lev l).softbuf.buf (s.lev l).softbuf.soft).prodndx
  decidable_of_iff (safe .low ∧ safe .lock) ⟨fun h l => l.casesOn h.1 h.2, fun h => ⟨h .low, h .lock⟩⟩

/-- The CPU is resized and the cyclic expires again while its handler is called. -/
def expandWhilePending : List (Event Unit) :=
  Event.expire 0 :: Event.softint Level.low :: List.replicate 6 (Event.step Level.low) ++ [Event.expand, Event.expandXcall, Event.expire 0] ++
    List.replicate 22 (Event.step Level.low) ++
    Event.softint Level.lock :: List.replicate 15 (Event.step Level.lock) ++ [Event.expandDone]

/-- Both expiries are handled, across the resize. -/
theorem oneToOne_of_safe_expandWhilePending : ∃ s : State Unit,
    Reachable State.Start State.SafeStep s ∧ s.shared.size = 2 ∧ s.shared.calls () = 2 ∧ s.OneToOne := by
  have hn : (runList (fun s e => if s.Allowed e ∧ (e matches .expandXcall → SafeToExpand s) then s.exec e
      else none) oneCyclic expandWhilePending).map (fun s => (s.shared.size, s.shared.calls ())) =
      some (2, 2) := by
    decide
  obtain ⟨s, hs, hen⟩ := Option.map_eq_some_iff.mp hn
  obtain ⟨hsz, hc⟩ := Prod.mk.inj hen
  have hr : Reachable State.Start State.SafeStep s := by
    refine Reachable.runList (fun s e s' he => ?_) (.start start_oneCyclic) hs
    split_ifs at he with ha
    exact ⟨e, ha.1, fun h => ha.2 (by rw [h]), he⟩
  exact ⟨s, hr, hsz, hc, oneToOne_of_safe hr⟩

end Sol8.Os.CyclicSoftint
