import Sol8.Os.MsgqInv

/-! The message queues refine typed FIFO queues: what one step does to the contents of the queues, and what holds
over every run. -/

namespace Sol8.Os.Msgq

open Function Sol8.Lib Sol8.Lib.Chain List State

variable {H Th : Type} [DecidableEq H] [DecidableEq Th] {c : Msginfo} {s s' : State H Th} {i : ℕ} {mp : H} {th : Th}
  {m : Msg} {L : ℕ → List H} {F : List H} {loc : H → Place Th} {pc' : Pc H} {l : Label} {ch : Choice} {a : RcvArgs}
  {pc : Pc H} {r : State H Th × Label} {x : Th} {fault : Bool}

/-! ### What a step does -/

/-- The call has done its work and can only succeed. -/
def Pc.committed : Pc H → Bool
  | .ret (.ok _) | .rcvFree .. | .rmidLoop _ | .rmidFree .. => true
  | _ => false

inductive Outcome (c : Msginfo) (s : State H Th) (L : ℕ → List H) (th : Th) : State H Th → Label → Prop
  | stay {pc' : Pc H} (hin : (s.pc th).inside c = pc'.inside c) (hhand : (s.pc th).hand = pc'.hand)
      (hrem : (s.pc th).removing c = pc'.removing c) (hcom : (s.pc th).committed = false) :
      Outcome c s L th (s.setPc th pc') .tau
  | lock {i : ℕ} {k : Option Th} {pc' : Pc H}
      (hin : (s.pc th).inside c = none ∧ (s.q i).lock = none ∨ (s.pc th).inside c = some i)
      (hin' : pc'.inside c = none ∧ k = none ∨ pc'.inside c = some i ∧ k = some th)
      (halloc : k ≠ none → (s.q i).alloc = true) (hhand : pc'.hand = (s.pc th).hand)
      (hrem : (s.pc th).removing c = none) (hcom : (s.pc th).committed = false) :
      Outcome c s L th ((s.setLock i k).setPc th pc') .tau
  | take {a : SndArgs} {t : ℤ} {mp : H} (hpc : s.pc th = .sndHdr a t) (hfp : s.msgfp = some mp) :
      Outcome c s L th ({ s with msgfp := s.next mp }.setPc th (.sndCopy a t mp)) .tau
  | put {i : ℕ} {mp : H} {k : Option Th} {pc' : Pc H} (hin : (s.pc th).inside c = some i) (hmp : (s.pc th).hand = some mp)
      (hin' : pc'.inside c = none ∧ k = none ∨ pc'.inside c = some i ∧ k = some th) (hhand : pc'.hand = none)
      (hrem : (s.pc th).removing c = pc'.removing c) (hcom : (s.pc th).committed = pc'.committed) :
      Outcome c s L th (((s.putHdr mp).setLock i k).setPc th pc') .tau
  | send {a : SndArgs} {t : ℤ} {mp : H} {m : Msg} (hpc : s.pc th = .sndCopy a t mp) :
      Outcome c s L th ((s.append (c.slot a.msqid) mp m).exit th (c.slot a.msqid) (.ok 0)) (.send (c.slot a.msqid) m)
  | recv {a : RcvArgs} {l₁ l₂ : List H} {mp : H} {xtsz : ℕ} (hL : L (c.slot a.msqid) = l₁ ++ mp :: l₂)
      (hsel : Selected a.msgtyp (l₁.map s.msg) (s.msg mp) (l₂.map s.msg)) (hpc : s.pc th = .rcv a ∨ s.pc th = .rcvWait a)
      (hlock : (s.q (c.slot a.msqid)).lock = none) (halloc : (s.q (c.slot a.msqid)).alloc = true) :
      Outcome c s L th
        (((s.setQ (c.slot a.msqid) { s.q (c.slot a.msqid) with
          cbytes := (s.q (c.slot a.msqid)).cbytes - (s.msg mp).size, lock := some th }).unlink (c.slot a.msqid)
            l₁.getLast? mp).setPc th (.rcvFree a mp xtsz))
        (.recv (c.slot a.msqid) a.msgtyp (s.msg mp) xtsz)
  | discard {msqid : ℤ} {mp : H} {rest : List H} (hpc : s.pc th = .rmidLoop msqid) (hL : L (c.slot msqid) = mp :: rest) :
      Outcome c s L th ((s.unlink (c.slot msqid) none mp).setPc th (.rmidFree msqid mp)) (.discard (c.slot msqid))
  | finish {msqid : ℤ} {seq : ℕ} (hpc : s.pc th = .rmidLoop msqid) (hfirst : (s.q (c.slot msqid)).first = none) :
      Outcome c s L th
        ((s.setQ (c.slot msqid) { s.q (c.slot msqid) with cbytes := 0, seq := seq, alloc := false }).exit th (c.slot msqid)
          (.ok 0)) .tau

section

omit [DecidableEq H] [DecidableEq Th]

theorem setQ_self (s : State H Th) (i : ℕ) : s.setQ i (s.q i) = s := by
  simp [setQ]

theorem setLock_self {k : Option Th} (h : (s.q i).lock = k) : s.setLock i k = s := by
  subst h
  exact setQ_self s i

end

/-- The call is outside of the locks, and has done nothing yet. -/
structure Pc.Outside (c : Msginfo) (pc : Pc H) : Prop where
  inside : pc.inside c = none
  hand : pc.hand = none
  removing : pc.removing c = none
  committed : pc.committed = false

omit [DecidableEq H] [DecidableEq Th] in
theorem outside_of (hpc : s.pc th = pc)
    (h : (pc.inside c, pc.hand, pc.removing c, pc.committed) = (none, none, none, false)) : (s.pc th).Outside c := by
  simp only [Prod.mk.injEq] at h
  exact hpc ▸ ⟨h.1, h.2.1, h.2.2.1, h.2.2.2⟩

omit [DecidableEq H] in
/-- A call waits for the lock, and tests whether the queue is still there. -/
theorem entered {msqid : ℤ} {e : Errno} {k : Option (State H Th × Label)}
    (hs : (if (s.q (c.slot msqid)).lock ≠ none then none
      else if !s.valid c msqid then some (s.setPc th (.ret (.error e)), .tau) else k) = some r) :
    r = (s.setPc th (.ret (.error e)), .tau) ∨
      (s.q (c.slot msqid)).lock = none ∧ (s.q (c.slot msqid)).alloc = true ∧ k = some r := by
  split_ifs at hs with hl hv
  · exact .inl (Option.some.inj hs).symm
  · simp only [valid, Bool.not_eq_true', Bool.not_eq_false, Bool.and_eq_true] at hv
    exact .inr ⟨not_not.mp hl, hv.1.2, hs⟩

namespace Outcome

section

variable (hout : (s.pc th).Outside c)
include hout

/-- A call outside returns an error without entering a lock, or goes back to sleep. -/
theorem still (hin : pc'.inside c = none) (hh : pc'.hand = none) (hr : pc'.removing c = none) :
    Outcome c s L th (s.setPc th pc') .tau :=
  .stay (hout.inside.trans hin.symm) (hout.hand.trans hh.symm) (hout.removing.trans hr.symm) hout.committed

theorem leave (hl : (s.q i).lock = none) (hin : pc'.inside c = none) (hh : pc'.hand = none) :
    Outcome c s L th ((s.setLock i none).setPc th pc') .tau :=
  .lock (.inl ⟨hout.inside, hl⟩) (.inl ⟨hin, rfl⟩) (fun h => absurd rfl h) (hh.trans hout.hand.symm) hout.removing
    hout.committed

theorem enter (hl : (s.q i).lock = none) (ha : (s.q i).alloc = true) (hin : pc'.inside c = some i)
    (hh : pc'.hand = none) : Outcome c s L th ((s.setLock i (some th)).setPc th pc') .tau :=
  .lock (.inl ⟨hout.inside, hl⟩) (.inr ⟨hin, rfl⟩) (fun _ => ha) (hh.trans hout.hand.symm) hout.removing
    hout.committed

end

end Outcome

theorem getres_outcome {a : SndArgs} {t : ℤ} (hout : (s.pc th).Outside c) (hl : (s.q (c.slot a.msqid)).lock = none)
    (ha : (s.q (c.slot a.msqid)).alloc = true) : Outcome c s L th (s.getres c th a t) .tau := by
  simp only [getres]
  split <;> rename_i hf
  · split_ifs with hn
    all_goals exact .leave hout hl rfl rfl
  · exact .enter hout hl ha rfl rfl

omit [DecidableEq H] [DecidableEq Th] in
theorem Inv.search (h : Inv c s L F loc) (i : ℕ) (msgtyp : ℤ) : ((if msgtyp = 0 then ((s.q i).first, none) else
      findmsg s.next s.msg msgtyp (s.q i).qnum.toNat (s.q i).first none none none).1 = none ∧
      ∀ y ∈ L i, ¬ Eligible msgtyp (s.msg y)) ∨
    ∃ l1 mp l2, L i = l1 ++ mp :: l2 ∧ Selected msgtyp (l1.map s.msg) (s.msg mp) (l2.map s.msg) ∧
      (if msgtyp = 0 then ((s.q i).first, none) else
        findmsg s.next s.msg msgtyp (s.q i).qnum.toNat (s.q i).first none none none) = (some mp, l1.getLast?) := by
  have hn : (s.q i).qnum.toNat = (L i).length := by simp [h.qnum]
  rw [hn]
  exact search_cases (h.chain i)

theorem rcvFind_outcome (h : Inv c s L F loc) (hpc : s.pc th = .rcv a ∨ s.pc th = .rcvWait a)
    (hl : (s.q (c.slot a.msqid)).lock = none) (ha : (s.q (c.slot a.msqid)).alloc = true)
    (hr : s.rcvFind c th a fault = (s', l)) : Outcome c s L th s' l := by
  have hout : (s.pc th).Outside c := hpc.elim (outside_of · rfl) (outside_of · rfl)
  rcases h.search (c.slot a.msqid) a.msgtyp with ⟨hn, -⟩ | ⟨l1, mp, l2, hL, hsl, hs⟩
  · simp only [rcvFind, hn] at hr
    split_ifs at hr <;> cases hr <;> exact .leave hout hl rfl rfl
  · simp only [rcvFind, hs] at hr
    iterate 2
      split at hr
      · cases hr
        exact .leave hout hl rfl rfl
    cases hr
    exact .recv hL hsl hpc hl ha

theorem step_outcome (h : Inv c s L F loc) (hs : s.step c th ch = some (s', l)) : Outcome c s L th s' l := by
  unfold step at hs
  split at hs
  next a _ hpc =>
    have hout := outside_of (c := c) hpc rfl
    rcases entered hs with ⟨⟨⟩⟩ | ⟨hl, ha, hs⟩
    · exact .still hout rfl rfl rfl
    split at hs
    · cases hs
      exact .leave hout hl rfl rfl
    · cases hs
      exact .leave hout hl rfl rfl
    · split at hs <;> cases hs
      · exact .leave hout hl rfl rfl
      · exact getres_outcome hout hl ha
    · cases hs
  next a t hpc =>
    have hout := outside_of (c := c) hpc rfl
    rcases entered hs with ⟨⟨⟩⟩ | ⟨hl, ha, ⟨⟩⟩
    · exact .still hout rfl rfl rfl
    · exact getres_outcome hout hl ha
  next a t hpc =>
    split at hs <;> cases hs
    exact .still (outside_of hpc rfl) rfl rfl rfl
  next a gone hpc =>
    split at hs <;> cases hs
    exact .still (outside_of hpc rfl) rfl rfl rfl
  next a t hpc =>
    have hin : (s.pc th).inside c = some (c.slot a.msqid) := by rw [hpc]; rfl
    have hv {pc' : Pc H} (hi' : pc'.inside c = none) (hh : pc'.hand = none) :
        Outcome c s L th ((s.setLock (c.slot a.msqid) none).setPc th pc') .tau :=
      .lock (.inr hin) (.inl ⟨hi', rfl⟩) (fun hne => absurd rfl hne) (by rw [hpc]; exact hh) (hpc ▸ rfl)
        (hpc ▸ rfl)
    split at hs
    · split at hs <;> cases hs
      all_goals exact hv rfl rfl
    next mp hp =>
      cases hs
      exact .take hpc hp
  next a t hpc =>
    have hout := outside_of (c := c) hpc rfl
    rcases entered hs with ⟨⟨⟩⟩ | ⟨hl, ha, ⟨⟩⟩
    · exact .still hout rfl rfl rfl
    · exact getres_outcome hout hl ha
  next a t hpc =>
    cases hs
    exact .still (outside_of hpc rfl) rfl rfl rfl
  next a t mp hpc =>
    split at hs <;> cases hs
    exact .stay (hpc ▸ rfl) (hpc ▸ rfl) (hpc ▸ rfl) (hpc ▸ rfl)
  next a t mp b hpc =>
    split at hs <;> cases hs
    exact .send hpc
  next a mp hpc =>
    cases hs
    exact .put (hpc ▸ rfl) (hpc ▸ rfl) (.inl ⟨rfl, rfl⟩) rfl (hpc ▸ rfl) (hpc ▸ rfl)
  next a _ hpc =>
    have hout := outside_of (c := c) hpc rfl
    rcases entered hs with ⟨⟨⟩⟩ | ⟨hl, ha, hs⟩
    · exact .still hout rfl rfl rfl
    split at hs
    · cases hs
      exact .leave hout hl rfl rfl
    iterate 2
      · exact rcvFind_outcome h (.inl hpc) hl ha (Option.some.inj hs)
    · cases hs
  next a _ hpc =>
    have hout := outside_of (c := c) hpc rfl
    split at hs
    · cases hs
    next hl =>
      split at hs
      · cases hs
        exact .still hout rfl rfl rfl
      iterate 2
        rcases entered (e := .eidrm) ((if_neg hl).trans hs) with ⟨⟨⟩⟩ | ⟨hl, ha, hs⟩
        · exact .still hout rfl rfl rfl
        · exact rcvFind_outcome h (.inr hpc) hl ha (Option.some.inj hs)
      · cases hs
  next a mp xtsz hpc =>
    cases hs
    exact .put (hpc ▸ rfl) (hpc ▸ rfl) (.inl ⟨rfl, rfl⟩) rfl (hpc ▸ rfl) (hpc ▸ rfl)
  next msqid _ hpc =>
    have hout := outside_of (c := c) hpc rfl
    rcases entered hs with ⟨⟨⟩⟩ | ⟨hl, ha, hs⟩
    · exact .still hout rfl rfl rfl
    split at hs <;> cases hs
    · exact .leave hout hl rfl rfl
    · exact .enter hout hl ha rfl rfl
  next msqid hpc =>
    dsimp only at hs
    split at hs
    next mp hf =>
      cases hs
      obtain ⟨rest, hL⟩ := List.head?_eq_some_iff.mp (hf ▸ (h.chain (c.slot msqid)).head).symm
      exact .discard hpc hL
    next hf =>
      cases hs
      exact .finish hpc hf
  next msqid mp hpc =>
    cases hs
    have hin : (s.pc th).inside c = some (c.slot msqid) := by rw [hpc]; rfl
    have hk : (s.putHdr mp).setLock (c.slot msqid) (some th) = s.putHdr mp := setLock_self ((h.lock _ th).mpr hin)
    rw [← hk]
    exact .put hin (hpc ▸ rfl) (.inr ⟨rfl, rfl⟩) rfl (hpc ▸ rfl) (hpc ▸ rfl)
  · cases hs

/-! ### What it does to the contents -/

/-- What a step does to the contents of the queues. -/
def Effect (A A' : ℕ → List Msg) : Label → Prop
  | .tau => A' = A
  | .send i m => A' = update A i (A i ++ [m])
  | .recv i msgtyp m _ => ∃ l₁ l₂, A i = l₁ ++ m :: l₂ ∧ Selected msgtyp l₁ m l₂ ∧ A' = update A i (l₁ ++ l₂)
  | .discard i => ∃ m l, A i = m :: l ∧ A' = update A i l

def contents (s : State H Th) (L : ℕ → List H) (i : ℕ) : List Msg := (L i).map s.msg

omit [DecidableEq H] [DecidableEq Th] in
theorem contents_update {msg' : H → Msg} {k : List H} (hm : s'.msg = msg') (hs : ∀ j, j ≠ i → ∀ x ∈ L j, msg' x = s.msg x) :
    contents s' (update L i k) = update (contents s L) i (k.map msg') := by
  funext j
  by_cases hj : j = i
  · subst hj
    simp [contents, hm]
  · rw [update_of_ne hj, contents, contents, update_of_ne hj, hm]
    exact map_congr_left (hs j hj)

omit [DecidableEq H] in
theorem total_split (msg : H → Msg) (l1 l2 : List H) (mp : H) :
    total msg (l1 ++ mp :: l2) = total msg (l1 ++ l2) + (msg mp).size := by
  simp only [total, map_append, map_cons, sum_append, sum_cons]
  omega

namespace Inv

omit [DecidableEq H] in
theorem stay (h : Inv c s L F loc) (hin : (s.pc th).inside c = pc'.inside c) (hh : (s.pc th).hand = pc'.hand)
    (hr : (s.pc th).removing c = pc'.removing c) : Inv c (s.setPc th pc') L F loc := by
  have hl {β : Type} (f : Pc H → β) (hf : f (s.pc th) = f pc') (x : Th) : f (update s.pc th pc' x) = f (s.pc x) := by
    rw [pc_update f]
    split
    · next hx => rw [hx, hf]
    · rfl
  have hd : Data (s.setPc th pc') L F loc := h.toData.congr (i := 0) (fun _ _ => rfl) ⟨rfl, rfl, rfl⟩ rfl rfl
  refine { h, hd with hand := fun x mp => ?_, lock := fun i x => ?_, cbytes := fun i hn => h.cbytes i fun x => ?_ }
  · rw [← h.hand x mp, ← hl Pc.hand hh x]
    rfl
  · have his : ((s.setPc th pc').pc x).inside c = (s.pc x).inside c := hl (Pc.inside c) hin x
    rw [his]
    exact h.lock i x
  · rw [← hl (Pc.removing c) hr x]
    exact hn x

/-- Every outcome keeps the invariant and does what its label says. -/
theorem outcome (h : Inv c s L F loc) (ho : Outcome c s L th s' l) :
    ∃ L' F' loc', Inv c s' L' F' loc' ∧ Effect (contents s L) (contents s' L') l := by
  cases ho with
  | stay hin hh hr => exact ⟨L, F, loc, h.stay hin hh hr, rfl⟩
  | lock hin hi' ha hh hr =>
    exact ⟨L, F, loc, h.control hin hi' ha hh (fun j hj => by rw [hr] at hj; cases hj), rfl⟩
  | take hpc hp =>
    obtain ⟨F', hv⟩ := h.takeHdr hpc hp
    exact ⟨L, F', _, hv, rfl⟩
  | put hin hmp hi' hh hr => exact ⟨L, _, _, h.putHdr hin hmp hi' hh (fun j hj => hr ▸ hj), rfl⟩
  | @send a t mp m hpc =>
    refine ⟨_, F, _, h.append hpc rfl (.ok 0), ?_⟩
    have hc := (h.hand th mp).mp (hpc ▸ rfl)
    have hs (j : ℕ) (x : H) (hx : x ∈ L j) : update s.msg mp m x = s.msg x :=
      update_of_ne (ne_of_mem_of_not_mem hx (by rw [h.mem_queue, hc]; nofun)) ..
    have hm : ((s.append (c.slot a.msqid) mp m).exit th (c.slot a.msqid) (.ok 0)).msg = update s.msg mp m :=
      append_msg s _ mp m
    rw [contents_update hm fun j _ => hs j]
    simp only [Effect, map_append, map_singleton, update_self]
    rw [map_congr_left (hs _)]
    rfl
  | @recv a l1 l2 mp xtsz hL hsl hpc hl ha =>
    have hout : (s.pc th).Outside c := hpc.elim (outside_of · rfl) (outside_of · rfl)
    have hr (j : ℕ) (pc' : Pc H) (hj : (s.pc th).removing c = some j) : pc'.removing c = some j := by
      rw [hout.removing] at hj
      cases hj
    refine ⟨_, F, _, h.unlink hL (.inl ⟨hout.inside, hl⟩) rfl hout.hand rfl ha (fun j => hr j _) (fun hn => ?_) rfl, ?_⟩
    · rw [h.cbytes _ (removing_update (hr _ _) hn), hL, total_split]
      omega
    · refine ⟨l1.map s.msg, l2.map s.msg, ?_, hsl, ?_⟩
      · rw [contents, hL, map_append, map_cons]
      · rw [contents_update ?_ (fun _ _ _ _ => rfl), map_append]
        rfl
  | @discard msqid mp rest hpc hL =>
    have hin : (s.pc th).inside c = some (c.slot msqid) := by rw [hpc]; rfl
    have hl := (h.lock _ th).mpr hin
    have hs : s = s.setQ (c.slot msqid)
        { s.q (c.slot msqid) with cbytes := (s.q (c.slot msqid)).cbytes, lock := some th } := by
      rw [← hl]
      exact (setQ_self s _).symm
    have hv : Inv c ((s.unlink (c.slot msqid) ([] : List H).getLast? mp).setPc th (.rmidFree msqid mp))
        (update L (c.slot msqid) ([] ++ rest)) F (update loc mp (.hand th)) := by
      refine h.unlink hL (.inr hin) rfl (hpc ▸ rfl) rfl (h.alloc _ (by rw [hl]; nofun)) ?_ (fun hn => ?_) hs
      · rw [hpc]
        exact fun _ hj => hj
      · -- the count of bytes is not kept up any more
        exact absurd (by rw [update_self]; rfl) (hn th)
    refine ⟨_, F, _, hv, s.msg mp, rest.map s.msg, by rw [contents, hL, map_cons], ?_⟩
    rw [contents_update ?_ (fun _ _ _ _ => rfl)]
    · rfl
    · simp only [setPc, unlink_msg]
  | finish hpc hf => exact ⟨L, F, loc, h.finish hpc rfl hf _ _, rfl⟩

omit [DecidableEq H] [DecidableEq Th] in
theorem config (h : Inv c s L F loc) {qp : Msqid H Th} (hr : qp.first = (s.q i).first) (hl : qp.last = (s.q i).last)
    (hq : qp.qnum = (s.q i).qnum) (hc : qp.cbytes = (s.q i).cbytes) (hlc : qp.lock = (s.q i).lock)
    (ha : qp.alloc = true) (hi : i < c.msgmni) : Inv c (s.setQ i qp) L F loc := by
  have hs : (s.setQ i qp).q i = qp := update_self ..
  have hn (j : ℕ) (hj : j ≠ i) : (s.setQ i qp).q j = s.q j := update_of_ne hj ..
  constructor
  case toData => exact h.toData.congr hn (by rw [hs]; exact ⟨hr, hl, hq⟩) rfl rfl
  case hand => exact h.hand
  case lock =>
    intro j x
    by_cases hj : j = i
    · rw [hj, hs, hlc]
      exact h.lock i x
    · rw [hn j hj]
      exact h.lock j x
  case cbytes =>
    intro j hx
    by_cases hj : j = i
    · rw [hj, hs, hc]
      exact h.cbytes i (hj ▸ hx)
    · rw [hn j hj]
      exact h.cbytes j hx
  all_goals
    intro j hj
    by_cases hji : j = i
    · subst hji
      simp_all
    · rw [hn j hji] at *
      first | exact h.alloc j hj | exact h.dead j hj | exact h.bound j hj

theorem exec (h : Inv c s L F loc) {e : Event Th} (he : exec c s e = some (s', l)) :
    ∃ L' F' loc', Inv c s' L' F' loc' ∧ Effect (contents s L) (contents s' L') l := by
  cases e with
  | call th k =>
    simp only [Msgq.exec] at he
    split at he
    next r hpc =>
      cases he
      have hs : (k.start c : Pc H).Outside c := by
        cases k with
        | msgsnd a =>
          simp only [Call.start]
          split <;> exact ⟨rfl, rfl, rfl, rfl⟩
        | msgrcv a => exact ⟨rfl, rfl, rfl, rfl⟩
        | rmid msqid => exact ⟨rfl, rfl, rfl, rfl⟩
      exact ⟨L, F, loc, h.stay (hpc ▸ hs.inside.symm) (hpc ▸ hs.hand.symm) (hpc ▸ hs.removing.symm), rfl⟩
    · cases he
  | step th ch => exact h.outcome (step_outcome h he)
  | get i =>
    obtain ⟨hc, ⟨⟩⟩ := Option.ite_none_right_eq_some.mp he
    have hf := (h.chain i).head
    have hl := h.last i
    have hq := h.qnum i
    rw [h.dead i hc.2] at hf hl hq
    exact ⟨L, F, loc, h.config hf.symm hl.symm hq.symm rfl rfl rfl hc.1, rfl⟩
  | set i qbytes =>
    obtain ⟨hc, ⟨⟩⟩ := Option.ite_none_right_eq_some.mp he
    exact ⟨L, F, loc, h.config rfl rfl rfl rfl rfl hc.1 (h.bound i hc.1), rfl⟩

end Inv

/-! ### Whole runs -/

/-- The state and the history of the run, newest event first. -/
abbrev World (H Th : Type) : Type := State H Th × List (Event Th × Label)

def World.exec (c : Msginfo) (w : World H Th) (e : Event Th) : Option (World H Th) :=
  (Msgq.exec c w.1 e).map fun r => (r.1, (e, r.2) :: w.2)

def Step (c : Msginfo) (w w' : World H Th) : Prop := ∃ e, w.exec c e = some w'

/-- The contents that the history leaves on queues that were empty. -/
inductive Leaves : List (Event Th × Label) → (ℕ → List Msg) → Prop
  | nil : Leaves [] fun _ => []
  | cons {e : Event Th} {l : Label} {hist : List (Event Th × Label)} {A A' : ℕ → List Msg} :
    Leaves hist A → Effect A A' l → Leaves ((e, l) :: hist) A'

/-- The present or last call of `th` has changed a queue. -/
def changed (th : Th) : List (Event Th × Label) → Bool
  | [] => false
  | (.call th' _, _) :: hist => if th' = th then false else changed th hist
  | (.step th' _, l) :: hist => if th' = th ∧ l ≠ .tau then true else changed th hist
  | _ :: hist => changed th hist

/-- A step that changes a queue is one after which the call can only succeed. -/
theorem Outcome.committed (ho : Outcome c s L th s' l) (hc : (s.pc th).committed = true ∨ l ≠ .tau) :
    (s'.pc th).committed = true := by
  have hpc' {s : State H Th} {pc' : Pc H} (h : pc'.committed = true) : ((s.setPc th pc').pc th).committed = true := by
    simpa [setPc] using h
  cases ho with
  | stay _ _ _ hm => simp [hm] at hc
  | lock _ _ _ _ _ hm => simp [hm] at hc
  | take hpc _ => simp [hpc, Pc.committed] at hc
  | put _ _ _ _ _ hm =>
    refine hpc' (hm ▸ ?_)
    simpa using hc
  | send | recv | discard | finish => exact hpc' rfl

theorem Outcome.other (ho : Outcome c s L th s' l) (hx : x ≠ th) : s'.pc x = s.pc x := by
  have ht {s : State H Th} {pc' : Pc H} : (s.setPc th pc').pc x = s.pc x := update_of_ne hx ..
  cases ho with
  | stay | lock | take | put | finish => exact ht
  | send => exact ht.trans (congrFun (append_pc ..) x)
  | recv | discard => exact ht.trans (congrFun (unlink_pc _) x)

theorem Inv.changed {w w' : World H Th} (h : Inv c w.1 L F loc)
    (hw : ∀ th, changed th w.2 = true → (w.1.pc th).committed = true) (hst : Step c w w') (th : Th)
    (hc : changed th w'.2 = true) : (w'.1.pc th).committed = true := by
  obtain ⟨e, hex⟩ := hst
  obtain ⟨⟨s', l⟩, he, rfl⟩ := Option.map_eq_some_iff.mp hex
  cases e with
  | call th' k =>
    simp only [Msgq.exec] at he
    split at he
    · cases he
      simp only [Msgq.changed] at hc
      split at hc
      · cases hc
      next hne =>
        have hs : (w.1.setPc th' (k.start c)).pc th = w.1.pc th := update_of_ne (Ne.symm hne) ..
        exact (congrArg Pc.committed hs).trans (hw th hc)
    · cases he
  | step th' ch =>
    have ho := step_outcome h he
    simp only [Msgq.changed] at hc
    by_cases ht : th' = th
    · subst ht
      refine ho.committed ?_
      split at hc
      next hl => exact .inr hl.2
      · exact .inl (hw th' hc)
    · rw [if_neg fun hl => ht hl.1] at hc
      rw [ho.other (Ne.symm ht)]
      exact hw th hc
  | get i | set i qbytes =>
    obtain ⟨-, ⟨⟩⟩ := Option.ite_none_right_eq_some.mp he
    exact hw th hc

/-- `msgrcv` sleeps or returns `ENOMSG` only if no message is eligible. -/
theorem Inv.nomsg (h : Inv c s L F loc) (hpc : s.pc th = .rcv a ∨ s.pc th = .rcvWait a)
    (hs : s.step c th ch = some (s', l)) (hpc' : s'.pc th = .rcvWait a ∨ s'.pc th = .ret (.error .enomsg)) :
    ∀ m ∈ contents s L (c.slot a.msqid), ¬ Eligible a.msgtyp m := by
  have ht (s : State H Th) (pc' : Pc H) : (s.setPc th pc').pc th = pc' := update_self ..
  have hf {fault : Bool} (hr : some (s.rcvFind c th a fault) = some (s', l)) :
      ∀ m ∈ contents s L (c.slot a.msqid), ¬ Eligible a.msgtyp m := by
    rcases h.search (c.slot a.msqid) a.msgtyp with ⟨-, hn⟩ | ⟨l1, mp, l2, hL, -, hm⟩
    · exact forall_mem_map.mpr hn
    · simp only [rcvFind, hm] at hr
      split_ifs at hr <;> cases hr <;> simp [exit, ht] at hpc'
  rcases hpc with hpc | hpc <;> simp only [step, hpc] at hs
  · rcases entered hs with ⟨⟨⟩⟩ | ⟨-, -, hs⟩
    · simp [ht] at hpc'
    split at hs
    · cases hs
      simp [exit, ht] at hpc'
    iterate 2
      · exact hf hs
    · cases hs
  · split at hs
    · cases hs
    next hl =>
      split at hs
      · cases hs
        simp [ht] at hpc'
      iterate 2
        rcases entered (e := .eidrm) ((if_neg hl).trans hs) with ⟨⟨⟩⟩ | ⟨-, -, hs⟩
        · simp [ht] at hpc'
        · exact hf hs
      · cases hs

omit [DecidableEq Th] in
theorem Inv.headers [Fintype H] (h : Inv c s L F loc) :
    ∃ hands : List H, hands.Nodup ∧ (∀ mp, mp ∈ hands ↔ ∃ th, (s.pc th).hand = some mp) ∧
      F.length + ((List.range c.msgmni).map fun i => (L i).length).sum + hands.length = Fintype.card H := by
  let inHand : H → Bool := fun mp => match loc mp with
    | .hand _ => true
    | _ => false
  let queued := (List.range c.msgmni).flatMap L
  let hands := (Finset.univ.filter fun mp => inHand mp = true).toList
  have hhn (mp : H) : mp ∈ hands ↔ ∃ th, (s.pc th).hand = some mp := by
    simp only [hands, Finset.mem_toList, Finset.mem_filter, Finset.mem_univ, true_and, inHand, h.hand]
    cases loc mp <;> simp
  have hqd (mp : H) : mp ∈ queued ↔ ∃ i, loc mp = .queue i := by
    simp only [queued, mem_flatMap, mem_range, h.mem_queue]
    refine ⟨fun ⟨i, _, hi⟩ => ⟨i, hi⟩, fun ⟨i, hi⟩ => ⟨i, h.bound i ?_, hi⟩⟩
    by_contra hd
    have hnil := h.dead i (by simpa using hd)
    simpa [hnil] using (h.mem_queue i mp).mpr hi
  have hn : (F ++ queued ++ hands).Nodup := by
    refine List.Nodup.append (h.free.nodup.append ?_ ?_) (Finset.nodup_toList _) ?_
    · refine nodup_flatMap.mpr ⟨fun i _ => (h.chain i).nodup, nodup_range.imp fun {i j} hij mp hi hj => hij ?_⟩
      exact Place.queue.inj (((h.mem_queue i mp).mp hi).symm.trans ((h.mem_queue j mp).mp hj))
    · intro mp hf hq
      obtain ⟨i, hi⟩ := (hqd mp).mp hq
      exact nomatch ((h.mem_free mp).mp hf).symm.trans hi
    · intro mp hf hh
      obtain ⟨th, ht⟩ := (hhn mp).mp hh
      have hl := (h.hand th mp).mp ht
      rcases mem_append.mp hf with hf | hq
      · exact nomatch ((h.mem_free mp).mp hf).symm.trans hl
      · obtain ⟨i, hi⟩ := (hqd mp).mp hq
        exact nomatch hi.symm.trans hl
  have ha (mp : H) : mp ∈ F ++ queued ++ hands := by
    rw [mem_append, mem_append, h.mem_free, hqd, hhn]
    simp only [h.hand]
    cases loc mp <;> simp
  refine ⟨hands, Finset.nodup_toList _, hhn, ?_⟩
  calc F.length + ((List.range c.msgmni).map fun i => (L i).length).sum + hands.length
      = (F ++ queued ++ hands).length := by simp [queued, length_flatMap, Nat.add_assoc]
    _ = (F ++ queued ++ hands).toFinset.card := (toFinset_card_of_nodup hn).symm
    _ = Fintype.card H := by
      rw [Finset.eq_univ_iff_forall.mpr fun mp => mem_toFinset.mpr (ha mp), Finset.card_univ]

omit [DecidableEq H] in
theorem inside_of_hand (h : pc.hand = some mp) : ∃ i, pc.inside c = some i := by
  cases pc <;> first | exact ⟨_, rfl⟩ | cases h

/-- The queues are the lists `L` of headers and the free headers are `F`, and they are what the history leaves. -/
structure Fifo [Fintype H] (c : Msginfo) (w : World H Th) (L : ℕ → List H) (F : List H) : Prop where
  leaves : Leaves w.2 (contents w.1 L)
  chain : ∀ i, Spells w.1.next (w.1.q i).first (L i)
  free : Spells w.1.next w.1.msgfp F
  last : ∀ i, (w.1.q i).last = (L i).getLast?
  qnum : ∀ i, (w.1.q i).qnum = (L i).length
  /-- `IPC_RMID` sets `msg_cbytes` only when it has freed the last message. -/
  cbytes : ∀ i, (∀ th, (w.1.pc th).removing c ≠ some i) → (w.1.q i).cbytes = total w.1.msg (L i)
  failed : ∀ th e, w.1.pc th = .ret (.error e) → changed th w.2 = false
  nomsg : ∀ th a ch s' l, w.1.pc th = .rcv a ∨ w.1.pc th = .rcvWait a → w.1.step c th ch = some (s', l) →
    s'.pc th = .rcvWait a ∨ s'.pc th = .ret (.error .enomsg) →
    ∀ m ∈ contents w.1 L (c.slot a.msqid), ¬ Eligible a.msgtyp m
  /-- A header that is neither free nor queued is in the hands of one call. -/
  headers : ∃ hands : List H, hands.Nodup ∧ (∀ mp, mp ∈ hands ↔ ∃ th, (w.1.pc th).hand = some mp) ∧
    F.length + ((List.range c.msgmni).map fun i => (L i).length).sum + hands.length = Fintype.card H
  headers_unlocked : (∀ i, (w.1.q i).lock = none) →
    F.length + ((List.range c.msgmni).map fun i => (L i).length).sum = Fintype.card H

omit [DecidableEq H] [DecidableEq Th] in
theorem Init.inv (h : Init s) : ∃ F, Inv c s (fun _ => []) F fun _ => .free := by
  obtain ⟨F, hf, ha⟩ := h.free
  have ht (th : Th) : (s.pc th).hand = none ∧ (s.pc th).inside c = none := by
    obtain ⟨r, hr⟩ := h.pc th
    rw [hr]
    exact ⟨rfl, rfl⟩
  refine ⟨F, ?_⟩
  constructor
  case toData =>
    exact ⟨fun i => (h.q i).1, fun i => (h.q i).2.1, fun i => (h.q i).2.2.2.1, hf, fun mp => by simp [ha mp],
      fun i mp => by simp⟩
  case hand => exact fun th mp => by simp [(ht th).1]
  case lock => exact fun i th => by simp [(ht th).2, (h.q i).2.2.2.2.2]
  case alloc => exact fun i hne => absurd (h.q i).2.2.2.2.2 hne
  case dead => exact fun _ _ => rfl
  case bound => exact fun i hb => by simp [(h.q i).2.2.2.2.1] at hb
  case cbytes => exact fun i _ => (h.q i).2.2.1

theorem reachable_inv {w : World H Th} (hr : Reachable (fun w => Init w.1 ∧ w.2 = []) (Step c) w) :
    ∃ L F loc, Inv c w.1 L F loc ∧ Leaves w.2 (contents w.1 L) ∧
      ∀ th, changed th w.2 = true → (w.1.pc th).committed = true := by
  induction hr with
  | @start w h =>
    obtain ⟨F, h0⟩ := h.1.inv (c := c)
    rw [h.2]
    exact ⟨_, F, _, h0, .nil, nofun⟩
  | next _ hs ih =>
    obtain ⟨L, F, loc, h, hl, hc⟩ := ih
    obtain ⟨e, hex⟩ := id hs
    obtain ⟨⟨s', l⟩, he, rfl⟩ := Option.map_eq_some_iff.mp hex
    obtain ⟨L', F', loc', h', hf⟩ := h.exec he
    exact ⟨L', F', loc', h', .cons hl hf, h.changed hc hs⟩

/-- In every run the queues are typed FIFO queues. -/
theorem msgq_fifo [Fintype H] {w : World H Th} (hr : Reachable (fun w => Init w.1 ∧ w.2 = []) (Step c) w) :
    ∃ L F, Fifo c w L F := by
  obtain ⟨L, F, loc, h, hl, hh⟩ := reachable_inv hr
  obtain ⟨hands, hn, hmem, hcn⟩ := h.headers
  refine ⟨L, F, hl, h.chain, h.free, h.last, h.qnum, h.cbytes, fun th e hpc => ?_,
    fun th a ch s' l hpc hs hpc' => h.nomsg hpc hs hpc', ⟨hands, hn, hmem, hcn⟩, fun hlc => ?_⟩
  · by_contra hc
    have := hh th (by simpa using hc)
    rw [hpc] at this
    cases this
  · -- a hd in hand keeps a queue locked
    have hnil : hands = [] := by
      refine eq_nil_iff_forall_not_mem.mpr fun mp hm => ?_
      obtain ⟨th, ht⟩ := (hmem mp).mp hm
      obtain ⟨i, hi⟩ := inside_of_hand (c := c) ht
      exact nomatch (hlc i).symm.trans ((h.lock i th).mpr hi)
    simpa [hnil] using hcn

/-- Two free headers and no queue. -/
def twoFree : State Bool Unit where
  q _ := ⟨none, none, 0, 0, 0, false, 0, none⟩
  next mp := if mp then none else some true
  msg _ := ⟨0, 0, []⟩
  msgfp := some false
  pc _ := .ret (.ok 0)

theorem twoFree_run {e : List (Event Unit)} {w : World Bool Unit}
    (hw : runList (World.exec ⟨8, 16, 1⟩) (twoFree, []) e = some w) :
    Reachable (fun w => Init w.1 ∧ w.2 = []) (Step ⟨8, 16, 1⟩) w := by
  refine Reachable.runList (fun _ e _ he => ⟨e, he⟩) (.start ⟨⟨fun _ => ?_, ?_, fun _ => ⟨_, rfl⟩⟩, rfl⟩) hw
  · exact ⟨rfl, rfl, rfl, rfl, rfl, rfl⟩
  · exact ⟨[false, true], ⟨rfl, rfl, rfl⟩, by decide⟩

/-- Two messages are sent and the one of the lower type is received. -/
def lowerFirst : List (Event Unit) :=
  let send (t : ℤ) : List (Event Unit) :=
    [.call () (.msgsnd ⟨0, 1, true⟩), .step () (.type t), .step () .go, .step () (.text [7])]
  .get 0 :: send 2 ++ send 1 ++ [.call () (.msgrcv ⟨0, 1, -2, false, true⟩), .step () .go, .step () .go]

theorem msgq_fifo_lowerFirst : ∃ w, runList (World.exec ⟨8, 16, 1⟩) (twoFree, []) lowerFirst = some w ∧
      w.2.map Prod.snd = [.tau, .recv 0 (-2) ⟨1, 1, [7]⟩ 1, .tau, .send 0 ⟨1, 1, [7]⟩, .tau, .tau, .tau,
        .send 0 ⟨2, 1, [7]⟩, .tau, .tau, .tau, .tau] ∧ ∃ L F, Fifo ⟨8, 16, 1⟩ w L F := by
  have hb : (runList (World.exec ⟨8, 16, 1⟩) (twoFree, []) lowerFirst).map (fun w => w.2.map Prod.snd) =
      some [.tau, .recv 0 (-2) ⟨1, 1, [7]⟩ 1, .tau, .send 0 ⟨1, 1, [7]⟩, .tau, .tau, .tau, .send 0 ⟨2, 1, [7]⟩, .tau,
        .tau, .tau, .tau] := by decide
  obtain ⟨w, hw, hl⟩ := Option.map_eq_some_iff.mp hb
  exact ⟨w, hw, hl, msgq_fifo (twoFree_run hw)⟩

/-- While `msgsnd` copies the text in, its header is neither free nor on a queue. -/
theorem msgsnd_header_in_hand : ∃ w : World Bool Unit, Reachable (fun w => Init w.1 ∧ w.2 = []) (Step ⟨8, 16, 1⟩) w ∧
      Spells w.1.next w.1.msgfp [true] ∧ ∀ i, (w.1.q i).first = none := by
  refine ⟨_, twoFree_run (e := lowerFirst.take 4) rfl, ⟨rfl, rfl⟩, fun i => ?_⟩
  cases i <;> rfl

/-! ### Capacity -/

/-- A `msgsnd` that has found room. -/
def Pc.granted : Pc H → Option SndArgs
  | .sndHdr a _ | .sndCopy a _ _ => some a
  | _ => none

/-- The test of `getres`. -/
def State.HasRoom (c : Msginfo) (s : State H Th) (a : SndArgs) : Prop :=
  (a.msgsz : ℤ) ≤ ((s.q (c.slot a.msqid)).qbytes - (s.q (c.slot a.msqid)).cbytes) % 2 ^ 64

/-- Only the thread inside its lock writes a queue. -/
theorem Outcome.locked (h : Inv c s L F loc) (ho : Outcome c s L th s' l) {j : ℕ} (hx : x ≠ th)
    (hj : (s.q j).lock = some x) : s'.q j = s.q j := by
  have hp {k : ℕ} (hk : (s.q k).lock = none ∨ (s.pc th).inside c = some k) : j ≠ k := by
    rintro rfl
    rcases hk with hk | hk
    · simp [hk] at hj
    · exact hx (Option.some.inj (hj.symm.trans ((h.lock j th).mpr hk)))
  cases ho with
  | stay | take => rfl
  | lock hin => exact update_of_ne (hp (hin.imp_left And.right)) ..
  | put hin => exact update_of_ne (hp (.inr hin)) ..
  | @send a t mp m hpc =>
    obtain ⟨_, _, _, hq⟩ := append_q s (c.slot a.msqid) mp m
    have hne := hp (k := c.slot a.msqid) (.inr (hpc ▸ rfl))
    exact (update_of_ne hne ..).trans ((congrFun hq j).trans (update_of_ne hne ..))
  | recv _ _ _ hl =>
    have hne := hp (.inl hl)
    exact Eq.trans (unlink_of_ne _ hne) (update_of_ne hne ..)
  | @discard msqid _ _ hpc =>
    have hne := hp (k := c.slot msqid) (.inr (hpc ▸ rfl))
    simp [setPc, unlink_of_ne, hne]
  | @finish msqid _ hpc =>
    have hne := hp (k := c.slot msqid) (.inr (hpc ▸ rfl))
    exact (update_of_ne hne ..).trans (update_of_ne hne ..)

omit [DecidableEq H] in
/-- `msgsnd` goes on from `getres` if it finds room, else it waits or returns `EAGAIN`. -/
theorem getres_spec (s : State H Th) (th : Th) (a : SndArgs) (t : ℤ) :
    (s.HasRoom c a → (s.getres c th a t).pc th = .sndHdr a t ∧ (s.getres c th a t).HasRoom c a) ∧
      (¬ s.HasRoom c a → (s.getres c th a t).pc th = .sndFull a t ∨ (s.getres c th a t).pc th = .ret (.error .eagain)) := by
  simp only [getres, State.HasRoom, exit, setPc, setLock, setQ]
  constructor <;> intro h
  · rw [if_neg (by omega)]
    simpa using h
  · rw [if_pos (by omega)]
    split_ifs <;> simp

theorem rcvFind_granted (hr : some (s.rcvFind c th a fault) = some (s', l)) :
    (s'.pc th).granted = none ∧ ∀ i m, l ≠ .send i m := by
  unfold rcvFind at hr
  dsimp only at hr
  (repeat' split at hr) <;> cases hr <;> simp [exit, setPc, Pc.granted]

theorem append_limits (s : State H Th) (i : ℕ) (mp : H) (m : Msg) (r : Except Errno ℕ) :
    (((s.append i mp m).exit th i r).q i).cbytes = (s.q i).cbytes + m.size ∧
      (((s.append i mp m).exit th i r).q i).qbytes = (s.q i).qbytes := by
  obtain ⟨_, _, _, hq⟩ := append_q s i mp m
  simp [exit, setPc, setLock, setQ, hq]

theorem step_granted (hs : s.step c th ch = some (s', l)) :
    (∀ a, (s'.pc th).granted = some a → (s.pc th).granted = some a ∧ s'.q = s.q ∨ s'.HasRoom c a) ∧
      ∀ i m, l = .send i m → ∃ a, (s.pc th).granted = some a ∧ c.slot a.msqid = i ∧ a.msgsz = m.size ∧
        (s'.q i).cbytes = (s.q i).cbytes + m.size ∧ (s'.q i).qbytes = (s.q i).qbytes := by
  have hgr (b : SndArgs) (t : ℤ) (a : SndArgs) (hg : ((s.getres c th b t).pc th).granted = some a) :
      (s.pc th).granted = some a ∧ (s.getres c th b t).q = s.q ∨ (s.getres c th b t).HasRoom c a := by
    by_cases hr : s.HasRoom c b
    · have hp := (getres_spec s th b t).1 hr
      obtain rfl : b = a := by simpa [hp.1, Pc.granted] using hg
      exact .inr hp.2
    · rcases (getres_spec s th b t).2 hr with hpc | hpc <;> simp [hpc, Pc.granted] at hg
  unfold step at hs
  dsimp only at hs
  (repeat' split at hs) <;> try cases hs
  all_goals first
    | exact ⟨hgr _ _, by simp⟩
    | obtain ⟨hn, hne⟩ := rcvFind_granted hs
      exact ⟨by simp [hn], fun i m he => absurd he (hne i m)⟩
    | exact ⟨by simp [exit, setPc, Pc.granted], by
        rintro i m ⟨⟩
        simp [append_limits, Pc.granted, *]⟩
    | simp_all [exit, setPc, Pc.granted]

theorem hasRoom_of_granted {w : World H Th} (hr : Reachable (fun w => Init w.1 ∧ w.2 = []) (Step c) w)
    {a : SndArgs} (ha : (w.1.pc x).granted = some a) : w.1.HasRoom c a := by
  induction hr generalizing x a with
  | start h =>
    obtain ⟨r, hx⟩ := h.1.pc x
    simp [hx, Pc.granted] at ha
  | @next w _ hr hs ih =>
    obtain ⟨e, hex⟩ := hs
    obtain ⟨⟨s', l⟩, he, rfl⟩ := Option.map_eq_some_iff.mp hex
    obtain ⟨L, F, loc, h, -⟩ := reachable_inv hr
    have hk (hx : (w.1.pc x).granted = some a) (hq : (w.1.q (c.slot a.msqid)).lock = some x →
        s'.q (c.slot a.msqid) = w.1.q (c.slot a.msqid)) : s'.HasRoom c a := by
      have hin : (w.1.pc x).inside c = some (c.slot a.msqid) := by
        cases hpc : w.1.pc x <;> simp_all [Pc.granted, Pc.inside]
      have hm := ih hx
      rwa [State.HasRoom, ← hq ((h.lock _ _).mpr hin)] at hm
    cases e with
    | call y k =>
      simp only [Msgq.exec] at he
      split at he <;> cases he
      by_cases hx : x = y
      · subst hx
        cases k <;> simp only [setPc, update_self, Call.start] at ha <;> (try split at ha) <;> cases ha
      · exact hk (by simpa [setPc, hx] using ha) fun _ => rfl
    | step y ch =>
      by_cases hx : x = y
      · subst hx
        exact ((step_granted he).1 a ha).elim (fun hg => hk hg.1 fun _ => congrFun hg.2 _) id
      · have ho := step_outcome h he
        exact hk (ho.other hx ▸ ha) (ho.locked h hx)
    | get i | set i =>
      obtain ⟨hi, ⟨⟩⟩ := Option.ite_none_right_eq_some.mp he
      refine hk ha fun hl => update_of_ne ?_ ..
      rintro rfl
      have hal := h.alloc (c.slot a.msqid) (by simp [hl])
      simp_all

/-- In every run an appended message stays within `msg_qbytes` just when the bytes queued before it do, and as long as they
do, a `msgsnd` without room waits or returns `EAGAIN`. -/
theorem msgsnd_within_qbytes {w : World H Th} (hr : Reachable (fun w => Init w.1 ∧ w.2 = []) (Step c) w) :
    (∀ th ch s' i m, w.1.step c th ch = some (s', .send i m) →
      ((s'.q i).cbytes ≤ (s'.q i).qbytes ↔ (w.1.q i).cbytes ≤ (w.1.q i).qbytes)) ∧
    ∀ th a t q, w.1.q (c.slot a.msqid) = q → q.cbytes ≤ q.qbytes → q.qbytes < q.cbytes + a.msgsz →
      (w.1.getres c th a t).pc th = .sndFull a t ∨ (w.1.getres c th a t).pc th = .ret (.error .eagain) := by
  refine ⟨fun th ch s' i m hs => ?_, fun th a t q hq hle hlt => (getres_spec w.1 th a t).2 fun hm => ?_⟩
  · obtain ⟨a, hg, rfl, hsz, hc, hq⟩ := (step_granted hs).2 i m rfl
    have hm := hasRoom_of_granted hr hg
    rw [State.HasRoom] at hm
    rw [hc, hq]
    omega
  · rw [State.HasRoom, hq] at hm
    omega

/-- The limit is set to 1 with 2 bytes queued, and 2 more are sent. -/
def lowered : List (Event Unit) :=
  let send : List (Event Unit) := [.call () (.msgsnd ⟨0, 2, true⟩), .step () (.type 1), .step () .go]
  .get 0 :: send ++ [.step () (.text [7, 8]), .set 0 1] ++ send

theorem msgsnd_over_lowered : ∃ w s' m, runList (World.exec ⟨8, 16, 1⟩) (twoFree, []) lowered = some w ∧
      w.1.step ⟨8, 16, 1⟩ () (.text [7, 8]) = some (s', .send 0 m) ∧ (s'.q 0).cbytes = 4 ∧ (s'.q 0).qbytes = 1 :=
  ⟨_, _, _, rfl, rfl, rfl, rfl⟩

theorem msgsnd_within_lowerFirst : ∃ w s' m, runList (World.exec ⟨8, 16, 1⟩) (twoFree, []) (lowerFirst.take 4) = some w ∧
      w.1.step ⟨8, 16, 1⟩ () (.text [7]) = some (s', .send 0 m) ∧ (s'.q 0).cbytes ≤ (s'.q 0).qbytes := by
  have hw := msgsnd_within_qbytes (twoFree_run (e := lowerFirst.take 4) rfl)
  exact ⟨_, _, _, rfl, rfl, (hw.1 () (.text [7]) _ 0 _ rfl).mpr (by decide)⟩

end Sol8.Os.Msgq
