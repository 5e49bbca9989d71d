import Sol8.Disp.DispqRep

/-! Runs of the operations on the dispatch queues. The queues of all CPUs and partitions share the links of the
threads; a thread is on the list of its priority in the queue it was last put on, and on no other. -/

namespace Sol8.Disp

open Function Sol8.Lib Sol8.Lib.Chain Sol8.Lib.Ranked Sol8.Os.Bitmap List State

section Facts

variable {Q T : Type} {c : Config} {kpq : Q → Bool} {s : State Q T} {L : Q → ℕ → List T} {d : Q} {tp t : T}
  {dp : DispT T} {link' : T → Option T} {p pri : ℕ}

structure Inv (c : Config) (kpq : Q → Bool) (s : State Q T) (L : Q → ℕ → List T) : Prop where
  rep : ∀ d, Rep c (s.disp d) s.link s.bound (L d)
  mem : ∀ d p t, t ∈ L d p ↔ s.queued t = true ∧ s.dispQueue t = d ∧ s.pri t = p
  idle : ∀ t, s.queued t = false → s.link t = none
  kp : ∀ d, kpq d = true → ∀ p, ∀ t ∈ L d p, s.bound t = false

theorem DispT.raiseMax_eq (dp : DispT T) (pri : ℕ) : dp.raiseMax pri = { dp with maxrunpri := max dp.maxrunpri pri } := by
  rw [DispT.raiseMax]
  split
  · rw [max_eq_right (by omega)]
  · rw [max_eq_left (by omega)]

theorem DispT.raiseUnbound_eq (dp : DispT T) (pri : ℕ) :
    dp.raiseUnbound pri = { dp with maxUnboundPri := max dp.maxUnboundPri pri } := by
  rw [DispT.raiseUnbound]
  split
  · rw [max_eq_right (by omega)]
  · rw [max_eq_left (by omega)]

theorem uncount_npri (c : Config) (dp : DispT T) (p : ℕ) : (uncount c dp p).npri = dp.npri := by
  unfold uncount
  dsimp only
  split_ifs <;> rfl

theorem State.bound_of_toKp (h : s.toKp c tp = true) : s.bound tp = false := by
  simp only [toKp, Bool.and_eq_true, Bool.not_eq_true'] at h
  exact h.1.2

namespace Inv

section

variable (h : Inv c kpq s L)
include h

theorem notMem (ht : s.queued t = false) (d : Q) (p : ℕ) : t ∉ L d p := by
  intro hmem
  have := ((h.mem d p t).mp hmem).1
  rw [ht] at this
  cases this

theorem other_link (ht : s.queued tp = false)
    (hl : ∀ t, t ≠ tp → t ∉ L d (s.pri tp) → link' t = s.link t) (p : ℕ) (hp : p ≠ s.pri tp) (a : T) (ha : a ∈ L d p) :
    link' a = s.link a := by
  refine hl a ?_ fun ha' => hp ?_
  · rintro rfl
    exact h.notMem ht d p ha
  · exact ((h.mem d p a).mp ha).2.2.symm.trans ((h.mem d _ a).mp ha').2.2

theorem act_of_ne (hne : L d p ≠ []) (j : ℕ) :
    btTest c.ulshift (s.disp d).qactmap j ↔ j = p ∨ btTest c.ulshift (s.disp d).qactmap j := by
  refine ⟨.inr, ?_⟩
  rintro (rfl | hj)
  · exact ((h.rep d).qactmap j).mpr hne
  · exact hj

/-- On a kp queue the thread that is put on a list with threads is not the first unbound one of its priority. -/
theorem raiseUnbound_kp (hkp : kpq d = true) (hne : L d p ≠ [])
    (hd : dp.maxUnboundPri = (s.disp d).maxUnboundPri) : dp.raiseUnbound p = dp := by
  obtain ⟨a, ha⟩ := exists_mem_of_ne_nil _ hne
  have := (h.rep d).unbound p a ha (h.kp d hkp p a ha)
  rw [DispT.raiseUnbound, if_neg (by omega)]

theorem split (hq : s.queued tp = true) : ∃ l1 l2, L (s.dispQueue tp) (s.pri tp) = l1 ++ tp :: l2 :=
  append_of_mem ((h.mem _ _ tp).mpr ⟨hq, rfl, rfl⟩)

/-- No unbound thread has a priority over the cached maximum. -/
theorem find_below (hpr : (s.disp d).maxUnboundPri = pri) (hf : (L d pri).find? (fun t => !s.bound t) = some tp) :
    (below (L d) (s.disp d).npri).find? (fun t => !s.bound t) = some tp := by
  have hr := h.rep d
  have hlt : pri < (s.disp d).npri := hr.lt_npri fun hnil => by simp [hnil] at hf
  have hh : (between (L d) pri (s.disp d).npri).find? (fun t => !s.bound t) = none := by
    refine List.find?_eq_none.mpr fun a ha hb => ?_
    obtain ⟨i, hi, -, ha⟩ := mem_between.mp ha
    have := hr.unbound i a ha (by simpa using hb)
    omega
  rw [below_split hlt, List.find?_append, List.find?_append, hh, hf]
  rfl

end

end Inv

end Facts

variable {Q T : Type} [DecidableEq Q] [DecidableEq T] {c : Config} {kpq : Q → Bool} {s s' : State Q T}
  {L : Q → ℕ → List T} {d cp kp : Q} {tp t : T} {l l1 l2 : List T} {dp : DispT T} {link' : T → Option T}
  {p pri n : ℕ}

/-- `setbackdq` and `setfrontdq` as a whole, and from the choice of the CPU on. -/
def State.setdq (c : Config) (s : State Q T) (tp : T) (cp kp : Q) : Borf → State Q T
  | .back => s.setbackdq c tp cp kp
  | .front => s.setfrontdq c tp cp kp

def State.insertAt (c : Config) (s : State Q T) (tp : T) (d : Q) : Borf → State Q T
  | .back => s.insertBack c tp d
  | .front => s.insertFront c tp d

/-- The list with the thread at that end. -/
def Borf.put (tp : T) (l : List T) : Borf → List T
  | .back => l ++ [tp]
  | .front => tp :: l

namespace Inv

section Insert

section

variable (h : Inv c kpq s L) (ht : s.queued tp = false) (hload : s.load tp = true)
include h ht hload

theorem insert (hkp : kpq d = true → s.bound tp = false) (dq : Dispq T) (hp : s.pri tp < (s.disp d).npri)
    (hl : l = tp :: L d (s.pri tp) ∨ l = L d (s.pri tp) ++ [tp])
    (hln : ∀ t, t ≠ tp → t ∉ L d (s.pri tp) → link' t = s.link t)
    (hc : Spells link' dq.first l) (hs : dq.last = l.getLast?)
    (hcn : dq.sruncnt = ((s.disp d).q (s.pri tp)).sruncnt + 1)
    (hn : dp.npri = (s.disp d).npri) (hq : dp.q = update (s.disp d).q (s.pri tp) dq) (hw : Words c.ulshift dp.qactmap)
    (hac : ∀ j, btTest c.ulshift dp.qactmap j ↔ j = s.pri tp ∨ btTest c.ulshift (s.disp d).qactmap j)
    (hr : dp.nrunnable = (s.disp d).nrunnable + 1) (hmax : dp.maxrunpri = max (s.disp d).maxrunpri (s.pri tp))
    (hu : dp.maxUnboundPri = (s.disp d).maxUnboundPri) : Inv c kpq { s with
        disp := update s.disp d (if s.bound tp then dp else dp.raiseUnbound (s.pri tp))
        link := link'
        run := update s.run tp true
        dispQueue := update s.dispQueue tp d }
      (update L d (update (L d) (s.pri tp) l)) := by
  have hmem (e : Q) (p : ℕ) (a : T) : a ∈ update L d (update (L d) (s.pri tp) l) e p ↔
      (a = tp ∧ e = d ∧ p = s.pri tp) ∨ a ∈ L e p := by
    by_cases he : e = d
    · subst he
      by_cases hp : p = s.pri tp
      · subst hp
        rcases hl with rfl | rfl <;> simp [or_comm]
      · simp [hp]
    · simp [he]
  have ho := h.other_link ht hln
  constructor
  case rep =>
    intro e
    by_cases he : e = d
    · subst he
      simp only [update_self, DispT.raiseUnbound_eq]
      cases hb : s.bound tp <;>
        exact (h.rep e).insert dq hp hl ho hc hs hcn hn hq hw hac hr hmax (by simp [hb, hu])
    · simp only [update_of_ne he]
      refine (h.rep e).congr (fun p a ha => hln a ?_ fun ha' => ?_) fun _ _ _ => rfl
      · rintro rfl
        exact h.notMem ht e p ha
      · exact he (((h.mem e p a).mp ha).2.1.symm.trans ((h.mem d _ a).mp ha').2.1)
  case mem =>
    intro e p a
    rw [hmem, h.mem]
    by_cases ha : a = tp
    · subst ha
      simp [queued, hload, eq_comm (a := d), eq_comm (a := s.pri a)]
      intro hr
      simp [queued, hload, hr] at ht
    · simp [queued, ha]
  case idle =>
    intro a ha
    have hne : a ≠ tp := by
      rintro rfl
      simp [queued, hload] at ha
    have ha : s.queued a = false := by simpa [queued, hne] using ha
    exact (hln a hne (h.notMem ha d _)).trans (h.idle a ha)
  case kp =>
    intro e he p a ha
    rcases (hmem e p a).mp ha with ⟨rfl, rfl, -⟩ | ha
    · exact hkp he
    · exact h.kp e he p a ha

section

variable (hp : s.pri tp < (s.disp d).npri) (hkp : kpq d = true → s.bound tp = false)
include hp hkp

theorem insertBack :
    Inv c kpq (s.insertBack c tp d) (update L d (update (L d) (s.pri tp) (L d (s.pri tp) ++ [tp]))) := by
  have hr := h.rep d
  have hn := h.notMem ht d (s.pri tp)
  by_cases hne : L d (s.pri tp) = []
  · have hz : ((s.disp d).q (s.pri tp)).sruncnt = 0 := by simp [hr.sruncnt, hne]
    have hl (a : T) (ha : a ≠ tp) (_ : a ∉ L d (s.pri tp)) : update s.link tp none a = s.link a := update_of_ne ha ..
    simp only [State.insertBack, State.threadRun, State.setDisp, hz, ne_eq, not_true_eq_false, if_false]
    rw [DispT.raiseMax_eq]
    refine h.insert ht hload hkp ⟨some tp, some tp, 1⟩ hp (.inr rfl) hl ?_ ?_ ?_ rfl rfl ?_ ?_ rfl rfl rfl
    · rw [hne]
      exact ⟨rfl, update_self ..⟩
    · simp [hne]
    · simp [hz]
    · exact hr.words.btSet _
    · intro j
      exact btTest_btSet
  · have hc := hr.sruncnt_ne_zero.mpr hne
    obtain ⟨b, hb⟩ := Option.isSome_iff_exists.mp (List.getLast?_isSome.mpr hne)
    have hl (a : T) (ha : a ≠ tp) (ha' : a ∉ L d (s.pri tp)) :
        update (update s.link tp none) b (some tp) a = s.link a := by
      rw [update_of_ne, update_of_ne ha]
      rintro rfl
      exact ha' (mem_of_getLast? hb)
    simp only [State.insertBack, State.threadRun, State.setDisp, hc, hr.last, hb, ne_eq, not_false_eq_true, if_true]
    refine h.insert ht hload hkp ⟨((s.disp d).q (s.pri tp)).first, some tp, ((s.disp d).q (s.pri tp)).sruncnt + 1⟩ hp
      (.inr rfl) hl ((hr.chain _).snoc hb hn) ?_ rfl rfl rfl hr.words (h.act_of_ne hne) rfl ?_ rfl
    · simp
    · exact (max_eq_left (hr.le_maxrunpri hne)).symm

theorem insertFront :
    Inv c kpq (s.insertFront c tp d) (update L d (update (L d) (s.pri tp) (tp :: L d (s.pri tp)))) := by
  have hr := h.rep d
  by_cases hne : L d (s.pri tp) = []
  · have hz : ((s.disp d).q (s.pri tp)).sruncnt = 0 := by simp [hr.sruncnt, hne]
    have hb : s.insertFront c tp d = s.insertBack c tp d := by
      simp only [State.insertFront, State.insertBack, hz, State.threadRun, ne_eq, not_true_eq_false, if_false]
    have hin := h.insertBack (c := c) ht hload hp hkp
    rw [hne] at hin
    rwa [hb, hne]
  · have hc := hr.sruncnt_ne_zero.mpr hne
    have hl (a : T) (ha : a ≠ tp) (_ : a ∉ L d (s.pri tp)) :
        update s.link tp ((s.disp d).q (s.pri tp)).first a = s.link a := update_of_ne ha ..
    simp only [State.insertFront, State.threadRun, State.setDisp, hc, ne_eq, not_false_eq_true, if_true]
    refine h.insert ht hload hkp ⟨some tp, ((s.disp d).q (s.pri tp)).last, ((s.disp d).q (s.pri tp)).sruncnt + 1⟩ hp
      (.inl rfl) hl ((hr.chain _).cons (h.notMem ht d _)) ?_ rfl rfl rfl hr.words (h.act_of_ne hne) rfl ?_ rfl
    · rw [hr.last, List.getLast?_cons_of_ne_nil hne]
    · exact (max_eq_left (hr.le_maxrunpri hne)).symm

end

end

theorem setkpdq_eq (h : Inv c kpq s L) (ht : s.queued tp = false) (hkp : kpq d = true) (hb : s.bound tp = false)
    (borf : Borf) : s.setkpdq c tp d borf = s.insertAt c tp d borf := by
  have hr := h.rep d
  have hd : update s.link tp none = s.link := update_eq_self_iff.mpr (h.idle tp ht).symm
  by_cases hne : L d (s.pri tp) = []
  · have hz : ((s.disp d).q (s.pri tp)).sruncnt = 0 := by simp [hr.sruncnt, hne]
    cases borf <;>
      simp only [State.setkpdq, State.insertAt, State.insertBack, State.insertFront, State.threadRun, State.setDisp, hz,
        hb, hd, ne_eq, not_true_eq_false, if_false, DispT.raiseMax_eq, DispT.raiseUnbound_eq, Bool.false_eq_true]
  · have hc := hr.sruncnt_ne_zero.mpr hne
    cases borf
    all_goals
      simp only [State.setkpdq, State.insertAt, State.insertBack, State.insertFront, State.threadRun, State.setDisp, hc,
        hb, ne_eq, not_false_eq_true, if_true, if_false, Bool.false_eq_true]
      rw [h.raiseUnbound_kp hkp hne]
      rfl

end Insert

section Remove

section

variable (h : Inv c kpq s L)
include h

theorem erase_eq (hL : L (s.dispQueue tp) (s.pri tp) = l1 ++ tp :: l2) :
    (fun e p => (L e p).erase tp) = update L (s.dispQueue tp) (update (L (s.dispQueue tp)) (s.pri tp) (l1 ++ l2)) := by
  have ho {e : Q} {p : ℕ} (hne : ¬ (s.dispQueue tp = e ∧ s.pri tp = p)) : (L e p).erase tp = L e p :=
    erase_of_not_mem fun hmem => hne ((h.mem e p tp).mp hmem).2
  funext e p
  by_cases he : e = s.dispQueue tp
  · subst he
    by_cases hp : p = s.pri tp
    · subst hp
      have hnd := ((h.rep (s.dispQueue tp)).chain (s.pri tp)).nodup
      rw [update_self, update_self, hL]
      rw [hL] at hnd
      have hn : tp ∉ l1 := fun hmem => (disjoint_of_nodup_append hnd) hmem mem_cons_self
      rw [erase_append_right _ hn, erase_cons_head]
    · rw [update_self, update_of_ne hp, ho fun hc => hp hc.2.symm]
  · rw [update_of_ne he, ho fun hc => he hc.1.symm]

theorem dispdeq_eq (hq : s.queued tp = true)
    (hL : L (s.dispQueue tp) (s.pri tp) = l1 ++ tp :: l2) : ∃ link' dq', s.dispdeq c tp = some ({ s with
      disp := update s.disp (s.dispQueue tp) (uncount c ((s.disp (s.dispQueue tp)).setQ (s.pri tp) dq') (s.pri tp))
      link := link'
      run := update s.run tp false }, true) ∧
    Spells link' dq'.first (l1 ++ l2) ∧ dq'.last = (l1 ++ l2).getLast? ∧
    dq'.sruncnt = ((s.disp (s.dispQueue tp)).q (s.pri tp)).sruncnt ∧
    link' tp = none ∧ ∀ a, a ≠ tp → a ∉ l1 → link' a = s.link a := by
  have hrp := h.rep (s.dispQueue tp)
  have hc := hrp.chain (s.pri tp)
  have hl := hrp.last (s.pri tp)
  rw [hL] at hc hl
  have hnd := hc.nodup
  have hn1 : tp ∉ l1 := fun hmem => (disjoint_of_nodup_append hnd) hmem mem_cons_self
  have hn2 : tp ∉ l2 := (nodup_cons.mp hnd.of_append_right).1
  have hlen : (l1 ++ tp :: l2).length ≤ ((s.disp (s.dispQueue tp)).q (s.pri tp)).sruncnt.toNat := by
    rw [hrp.sruncnt, hL]
    exact Nat.le_refl _
  have hs : seek s.link (· == tp) ((s.disp (s.dispQueue tp)).q (s.pri tp)).sruncnt.toNat none
      ((s.disp (s.dispQueue tp)).q (s.pri tp)).first = (l1.getLast?.or none, (tp :: l2).head?) :=
    hc.seek_append hlen (fun a ha => by simpa using ne_of_mem_of_not_mem ha hn1) (by simp)
  obtain ⟨hrn, hload⟩ : s.run tp = true ∧ s.load tp = true := by simpa [queued] using hq
  have hn : s.link tp = l2.head? := hc.next_eq
  simp only [dispdeq, hrn, hload, hs, List.head?_cons, Bool.not_true, Bool.false_eq_true, if_false, hn]
  -- the last pointer moves back when `tp` was the last
  have hen (dq : Dispq T) (hd : dq.last = (l1 ++ tp :: l2).getLast?) :
      (if l2.head? = none then { dq with last := l1.getLast?.or none } else dq) =
        { dq with last := (l1 ++ l2).getLast? } := by
    cases l2 with
    | nil => simp
    | cons b l2 =>
      have hm : (l1 ++ b :: l2).getLast? = dq.last := by simp [hd, List.getLast?_cons]
      rw [if_neg (by simp), hm]
  rcases eq_nil_or_concat l1 with rfl | ⟨l0, b, hl1⟩
  · have hr : Spells s.link l2.head? l2 := by
      have := hc.2
      rwa [hn] at this
    refine ⟨update s.link tp none, { (s.disp (s.dispQueue tp)).q (s.pri tp) with first := l2.head?, last := l2.getLast? },
      ?_, hr.update_of_notMem hn2 none, rfl, rfl, update_self .., fun a ha _ => update_of_ne ha ..⟩
    have := hen { (s.disp (s.dispQueue tp)).q (s.pri tp) with first := l2.head? } hl
    simp only [List.getLast?_nil, Option.or_none, nil_append] at this ⊢
    rw [this]
    rfl
  · rw [concat_eq_append] at hl1
    subst hl1
    refine ⟨update (update s.link b l2.head?) tp none,
      { (s.disp (s.dispQueue tp)).q (s.pri tp) with last := (l0 ++ [b] ++ l2).getLast? }, ?_, ?_, rfl, rfl, update_self ..,
      fun a ha ha' => ?_⟩
    · have := hen ((s.disp (s.dispQueue tp)).q (s.pri tp)) hl
      simp only [List.getLast?_concat, Option.some_or] at this ⊢
      rw [this]
      rfl
    · have hct := hc
      rw [append_assoc] at hct
      have hct := hct.unlink
      rw [hn] at hct
      rw [append_assoc]
      refine hct.update_of_notMem (fun hmem => ?_) none
      rcases mem_append.mp hmem with hmem | hmem
      · exact hn1 (mem_append_left _ hmem)
      · rcases mem_cons.mp hmem with rfl | hmem
        · exact hn1 (by simp)
        · exact hn2 hmem
    · have hab : a ≠ b := by
        rintro rfl
        exact ha' (by simp)
      rw [update_of_ne ha, update_of_ne hab]

theorem dispdeq (hq : s.queued tp = true) : ∃ s', s.dispdeq c tp = some (s', true) ∧
    Inv c kpq s' (fun e p => (L e p).erase tp) ∧
    s'.run = update s.run tp false ∧ s'.load = s.load ∧ s'.pri = s.pri ∧ s'.bound = s.bound ∧
    s'.dispQueue = s.dispQueue ∧ ∀ e, (s'.disp e).npri = (s.disp e).npri := by
  obtain ⟨l1, l2, hL⟩ := h.split hq
  obtain ⟨link', dq', heq, hc, hs, hcn, hn, hl⟩ := h.dispdeq_eq (c := c) hq hL
  have hmem (e : Q) (p : ℕ) (a : T) : a ∈ (L e p).erase tp ↔ a ≠ tp ∧ a ∈ L e p :=
    ((h.rep e).chain p).nodup.mem_erase_iff
  have hl1 {a : T} (ha : a ∈ l1) : a ∈ L (s.dispQueue tp) (s.pri tp) := by simp [hL, ha]
  have hd (a : T) : (update s.run tp false a && s.load a) = true ↔ a ≠ tp ∧ s.queued a = true := by
    by_cases ha : a = tp
    · subst ha
      simp
    · simp [queued, ha]
  refine ⟨_, heq, ?_, rfl, rfl, rfl, rfl, rfl, fun e => ?_⟩
  · constructor
    case rep =>
      intro e
      rw [show (fun p => (L e p).erase tp) = _ from congrFun (h.erase_eq hL) e]
      by_cases he : e = s.dispQueue tp
      · subst he
        simp only [update_self]
        refine (h.rep (s.dispQueue tp)).uncount hL (fun q hqn a ha => hl a ?_ fun ha' => hqn ?_) hc hs hcn
        · rintro rfl
          exact hqn ((h.mem _ q a).mp ha).2.2.symm
        · exact ((h.mem _ q a).mp ha).2.2.symm.trans ((h.mem _ _ a).mp (hl1 ha')).2.2
      · simp only [update_of_ne he]
        refine (h.rep e).congr (fun p a ha => hl a ?_ fun ha' => he ?_) fun _ _ _ => rfl
        · rintro rfl
          exact he ((h.mem e p a).mp ha).2.1.symm
        · exact ((h.mem e p a).mp ha).2.1.symm.trans ((h.mem _ _ a).mp (hl1 ha')).2.1
    case mem =>
      intro e p a
      rw [hmem, h.mem, ← and_assoc]
      exact and_congr_left fun _ => (hd a).symm
    case idle =>
      intro a ha
      by_cases hat : a = tp
      · rw [hat]
        exact hn
      · have hid : s.queued a = false := by
          rw [← Bool.not_eq_true] at ha ⊢
          exact fun hqa => ha ((hd a).mpr ⟨hat, hqa⟩)
        exact (hl a hat fun ha' => h.notMem hid _ _ (hl1 ha')).trans (h.idle a hid)
    case kp => exact fun e he p a ha => h.kp e he p a ((hmem e p a).mp ha).2
  · by_cases he : e = s.dispQueue tp
    · subst he
      simp only [update_self, uncount_npri, DispT.setQ]
    · simp only [update_of_ne he]

/-- `disp` takes the first thread of the highest priority, as `dispdeq` would. -/
theorem dispOwn_eq (hmax : (s.disp d).maxrunpri = p) : ∃ tp l2 s', L d p = tp :: l2 ∧
    s.dispdeq c tp = some (s', true) ∧ s.dispOwn c d = (s', some tp) := by
  have hr := h.rep d
  obtain ⟨tp, l2, hL⟩ := exists_cons_of_ne_nil (hr.maxrunpri.holds p hmax).1
  obtain ⟨hq, rfl, rfl⟩ := (h.mem d p tp).mp (by simp [hL])
  obtain ⟨link', dq', heq, hc, hs, hcn, hnn, hl⟩ := h.dispdeq_eq (c := c) hq (show _ = [] ++ tp :: l2 from hL)
  have hl : link' = update s.link tp none := by
    funext a
    by_cases ha : a = tp
    · rw [ha, hnn, update_self]
    · rw [hl a ha not_mem_nil, update_of_ne ha]
  have hlen : ((s.disp (s.dispQueue tp)).q (s.pri tp)).sruncnt = l2.length + 1 := by
    rw [hr.sruncnt, hL]
    rfl
  have hf : ((s.disp (s.dispQueue tp)).q (s.pri tp)).first = some tp := by
    rw [(hr.chain _).head, hL]
    rfl
  have hn : s.link tp = l2.head? := by
    have := hr.chain (s.pri tp)
    rw [hL] at this
    exact Spells.next_eq (show Spells _ _ ([] ++ tp :: l2) from this)
  have hd : dq' = ⟨l2.head?, l2.getLast?, l2.length + 1⟩ := by
    cases dq'
    simp only at hcn hs hc
    rw [hs, hcn, hc.head, hlen]
    rfl
  refine ⟨tp, l2, _, hL, heq, ?_⟩
  have hm : ¬ (s.pri tp : ℤ) = -1 := by omega
  simp only [dispOwn, setDisp, hm, hmax, hf, hlen, hn, hd, hl, if_false, Int.toNat_natCast]
  by_cases hnil : l2 = []
  · subst hnil
    have hid : update s.link tp none = s.link := update_eq_self_iff.mpr hn.symm
    have ho : (s.disp (s.dispQueue tp)).nrunnable - 1 = 0 ↔ (s.disp (s.dispQueue tp)).nrunnable = 1 := by omega
    rw [Rep.uncount_empty c rfl, hid]
    by_cases hrn : (s.disp (s.dispQueue tp)).nrunnable = 1
    · simp [hrn, DispT.setQ]
    · by_cases hlt : btGethighbit c.ulshift (btClear c.ulshift (s.disp (s.dispQueue tp)).qactmap (s.pri tp))
          (s.pri tp >>> c.ulshift) < (s.disp (s.dispQueue tp)).maxUnboundPri
      · simp [hrn, ho, DispT.setQ, hmax, hlt, min_eq_left hlt.le]
      · simp [hrn, ho, DispT.setQ, hmax, hlt, min_eq_right (Int.not_lt.mp hlt)]
  · have hl' : (l2.length : ℤ) + 1 ≠ 1 := by
      have := length_pos_of_ne_nil hnil
      omega
    rw [Rep.uncount_of_ne c hl', if_neg (by simpa using hnil)]
    have hen : ((s.disp (s.dispQueue tp)).q (s.pri tp)).last = l2.getLast? := by
      rw [hr.last, hL, List.getLast?_cons_of_ne_nil hnil]
    simp only [DispT.setQ, hen, hmax]

end

end Remove

section Unbound

/-- The cached maximum of the unbound threads is not only a bound. -/
def ExactUnbound (s : State Q T) (L : Q → ℕ → List T) (d : Q) : Prop :=
  ∀ p : ℕ, (s.disp d).maxUnboundPri = p → HasUnbound s.bound (L d) p

section

variable (h : Inv c kpq s L)
include h

omit [DecidableEq T] in
theorem dispFixUnboundPri (hpr : (s.disp d).maxUnboundPri = pri) (hn : ¬ HasUnbound s.bound (L d) pri) :
    Inv c kpq (s.dispFixUnboundPri c d pri) L ∧ ExactUnbound (s.dispFixUnboundPri c d pri) L d := by
  have hr := h.rep d
  have hf := fixLoop_highest hr (Nat.lt_succ_self pri)
  refine ⟨{ h with rep := fun e => ?_ }, fun p hp => ?_⟩
  · by_cases he : e = d
    · subst he
      simp only [dispFixUnboundPri, setDisp, update_self]
      exact { hr with
        maxUnboundPri_ge := hf.bottom
        maxUnboundPri_le := by
          have := hr.maxUnboundPri_le
          exact hf.lt.le.trans (hpr ▸ this)
        unbound := fun p t ht hb => by
          have hle := hr.unbound p t ht hb
          have hlt : p < pri := by
            refine lt_of_le_of_ne (by omega) ?_
            rintro rfl
            exact hn ⟨t, ht, hb⟩
          exact hf.le p hlt ⟨t, ht, hb⟩ }
    · simp only [State.dispFixUnboundPri, State.setDisp, update_of_ne he]
      exact h.rep e
  · simp only [State.dispFixUnboundPri, State.setDisp, update_self] at hp
    exact (hf.holds p hp).1

omit [DecidableEq Q] in
theorem touch (ht : s.queued tp = false) (ht' : s'.queued tp = false) (hd : s'.disp = s.disp)
    (hl : s'.link = s.link) (hn : ∀ a, a ≠ tp → s'.queued a = s.queued a)
    (hr : ∀ a, a ≠ tp → s'.dispQueue a = s.dispQueue a ∧ s'.pri a = s.pri a ∧ s'.bound a = s.bound a) :
    Inv c kpq s' L := by
  have hne {e : Q} {p : ℕ} {a : T} (ha : a ∈ L e p) : a ≠ tp := by
    rintro rfl
    exact h.notMem ht e p ha
  constructor
  case rep =>
    intro e
    rw [hd, hl]
    exact (h.rep e).congr (fun _ _ _ => rfl) fun p a ha => (hr a (hne ha)).2.2
  case mem =>
    intro e p a
    by_cases ha : a = tp
    · subst ha
      simp [ht', h.notMem ht]
    · rw [hn a ha, (hr a ha).1, (hr a ha).2.1, h.mem]
  case idle =>
    intro a ha
    rw [hl]
    by_cases hat : a = tp
    · exact h.idle a (hat ▸ ht)
    · exact h.idle a (hn a hat ▸ ha)
  case kp =>
    intro e he p a ha
    rw [(hr a (hne ha)).2.2]
    exact h.kp e he p a ha

theorem dispGetbest_cases (cp : Q) : ((s.disp d).maxUnboundPri = -1 ∧ s.dispGetbest c d cp = (s, none)) ∨
    (∃ pri : ℕ, (s.disp d).maxUnboundPri = pri ∧ ¬ HasUnbound s.bound (L d) pri ∧
      s.dispGetbest c d cp = (s.dispFixUnboundPri c d pri, none)) ∨
    ∃ (pri : ℕ) (tp : T) (s' : State Q T), (s.disp d).maxUnboundPri = pri ∧
      (L d pri).find? (fun t => !s.bound t) = some tp ∧ s.dispdeq c tp = some (s', true) ∧
      s.dispGetbest c d cp = ({ s' with dispQueue := update s'.dispQueue tp cp }, some tp) := by
  have hr := h.rep d
  by_cases hn : (s.disp d).maxUnboundPri = -1
  · exact .inl ⟨hn, by rw [dispGetbest, if_pos hn]⟩
  · obtain ⟨pri, hpr⟩ := Int.eq_ofNat_of_zero_le (by have := hr.maxUnboundPri_ge; omega : 0 ≤ (s.disp d).maxUnboundPri)
    refine .inr ?_
    rw [hpr] at hn
    simp only [dispGetbest, hpr, if_neg hn, Int.toNat_natCast]
    cases hf : s.firstUnbound ((s.disp d).q pri) with
    | none => exact .inl ⟨pri, rfl, (firstUnbound_eq_none hr pri).mp hf, rfl⟩
    | some tp =>
      have hfn := (firstUnbound_eq hr pri).symm.trans hf
      have hq := ((h.mem d pri tp).mp (mem_of_find?_eq_some hfn)).1
      obtain ⟨s', heq, -⟩ := h.dispdeq (c := c) hq
      exact .inr ⟨pri, tp, s', rfl, hfn, heq, by simp only [heq]⟩

/-- After `disp_getbest` found no thread the cached maximum is exact. -/
theorem dispGetbest_none (hr : (s.dispGetbest c d cp).2 = none) :
    Inv c kpq (s.dispGetbest c d cp).1 L ∧ ExactUnbound (s.dispGetbest c d cp).1 L d ∧
    (s.dispGetbest c d cp).1.bound = s.bound := by
  rcases h.dispGetbest_cases (c := c) (d := d) cp with ⟨hn, heq⟩ | ⟨pri, hpr, ho, heq⟩ | ⟨_, _, _, -, -, -, heq⟩
  · rw [heq]
    refine ⟨h, fun p hp => ?_, rfl⟩
    have hp : (s.disp d).maxUnboundPri = p := hp
    omega
  · rw [heq]
    obtain ⟨hin, hex⟩ := h.dispFixUnboundPri hpr ho
    exact ⟨hin, hex, rfl⟩
  · rw [heq] at hr
    cases hr

theorem dispGetbest_some (hr : (s.dispGetbest c d cp).2 = some tp) :
    (below (L d) (s.disp d).npri).find? (fun t => !s.bound t) = some tp ∧
    Inv c kpq (s.dispGetbest c d cp).1 (fun e p => (L e p).erase tp) := by
  rcases h.dispGetbest_cases (c := c) (d := d) cp with ⟨-, heq⟩ | ⟨_, -, -, heq⟩ | ⟨pri, t, s', hpr, hf, hd, heq⟩
  · rw [heq] at hr
    cases hr
  · rw [heq] at hr
    cases hr
  · rw [heq] at hr ⊢
    obtain rfl : t = tp := Option.some.inj hr
    refine ⟨h.find_below hpr hf, ?_⟩
    have hq := ((h.mem d pri t).mp (mem_of_find?_eq_some hf)).1
    obtain ⟨s1, he1, hin, hn, -⟩ := h.dispdeq (c := c) hq
    obtain rfl : s1 = s' := congrArg Prod.fst (Option.some.inj (he1.symm.trans hd))
    have hid : s1.queued t = false := by simp [queued, hn]
    exact hin.touch hid hid rfl rfl (fun _ _ => rfl) fun a ha => ⟨update_of_ne ha .., rfl, rfl⟩

theorem dispGetbest_ne_none (hex : ExactUnbound s L d) (hp : HasUnbound s.bound (L d) p) :
    (s.dispGetbest c d cp).2 ≠ none := by
  obtain ⟨t, ht, hb⟩ := hp
  have hle := (h.rep d).unbound p t ht hb
  rcases h.dispGetbest_cases (c := c) (d := d) cp with ⟨hn, -⟩ | ⟨pri, hr, ho, -⟩ | ⟨_, _, _, -, -, -, heq⟩
  · omega
  · exact absurd (hex pri hr) ho
  · rw [heq]
    simp

end

end Unbound

end Inv

def State.dest (c : Config) (s : State Q T) (tp : T) (cp kp : Q) : Q := if s.toKp c tp then kp else cp

/-- What `setbackdq` and `setfrontdq` ask for: the thread is on no queue, the queues are those of a CPU and of a
partition, and the one that is used has the priority of the thread. -/
structure State.CanPut (s : State Q T) (c : Config) (kpq : Q → Bool) (tp : T) (cp kp : Q) : Prop where
  off : s.queued tp = false
  cpu : kpq cp = false
  part : kpq kp = true
  pri : s.pri tp < (s.disp (s.dest c tp cp kp)).npri

namespace Inv

omit [DecidableEq Q] in
theorem swapped (h : Inv c kpq s L) (hload : s.load tp = false) : Inv c kpq (s.dispSwappedSetrun tp) L := by
  have ho : s.queued tp = false := by simp [queued, hload]
  refine h.touch ho ?_ rfl rfl (fun a ha => ?_) fun _ _ => ⟨rfl, rfl, rfl⟩
  · simp [queued, dispSwappedSetrun, hload]
  · simp [queued, dispSwappedSetrun, ha]

theorem insertAt (h : Inv c kpq s L) (ht : s.queued tp = false) (hload : s.load tp = true)
    (hp : s.pri tp < (s.disp d).npri) (hkp : kpq d = true → s.bound tp = false) (borf : Borf) :
    Inv c kpq (s.insertAt c tp d borf) (update L d (update (L d) (s.pri tp) (borf.put tp (L d (s.pri tp))))) := by
  cases borf with
  | back => exact h.insertBack ht hload hp hkp
  | front => exact h.insertFront ht hload hp hkp

theorem setdq (h : Inv c kpq s L) (hpt : s.CanPut c kpq tp cp kp) (hload : s.load tp = true) (borf : Borf) :
    Inv c kpq (s.setdq c tp cp kp borf) (update L (s.dest c tp cp kp) (update (L (s.dest c tp cp kp)) (s.pri tp)
      (borf.put tp (L (s.dest c tp cp kp) (s.pri tp))))) := by
  have hr := hpt.pri
  have hs : s.setdq c tp cp kp borf = if s.toKp c tp then s.setkpdq c tp kp borf else s.insertAt c tp cp borf := by
    cases borf
    all_goals exact if_neg (by simp [hload])
  rw [hs]
  unfold dest at hr ⊢
  by_cases hkp : s.toKp c tp = true
  · have hb := bound_of_toKp hkp
    rw [if_pos hkp] at hr ⊢
    rw [if_pos hkp, h.setkpdq_eq hpt.off hpt.part hb]
    exact h.insertAt hpt.off hload hr (fun _ => hb) borf
  · rw [if_neg hkp] at hr ⊢
    rw [if_neg hkp]
    exact h.insertAt hpt.off hload hr (fun hk => by simp [hpt.cpu] at hk) borf

end Inv

/-- One operation, or a change of a thread that is on no queue. -/
inductive Step (c : Config) (kpq : Q → Bool) (s : State Q T) : State Q T → Prop
  | setbackdq (tp : T) (cp kp : Q) : s.CanPut c kpq tp cp kp → Step c kpq s (s.setbackdq c tp cp kp)
  | setfrontdq (tp : T) (cp kp : Q) : s.CanPut c kpq tp cp kp → Step c kpq s (s.setfrontdq c tp cp kp)
  | dispdeq {tp : T} {s' : State Q T} {b : Bool} : s.dispdeq c tp = some (s', b) → Step c kpq s s'
  | disp (d : Q) : Step c kpq s (s.dispOwn c d).1
  | dispGetbest (d cp : Q) : Step c kpq s (s.dispGetbest c d cp).1
  | dispCpuInactive {d cp kp : Q} : kpq cp = false → kpq kp = true → (s.disp d).npri ≤ (s.disp cp).npri →
      (s.disp d).npri ≤ (s.disp kp).npri → Step c kpq s (s.inactiveRound c d cp kp)
  | change {tp : T} (run load : Bool) (pri : ℕ) (bound : Bool) : s.queued tp = false → (run && load) = false →
      Step c kpq s { s with
        run := update s.run tp run, load := update s.load tp load, pri := update s.pri tp pri
        bound := update s.bound tp bound }

def Init (s : State Q T) : Prop :=
  (∀ d, ∃ npri, s.disp d = .empty npri) ∧ (∀ t, s.queued t = false) ∧ ∀ t, s.link t = none

omit [DecidableEq Q] [DecidableEq T] in
theorem Init.inv (h : Init s) : Inv c kpq s fun _ _ => [] where
  rep d := by
    obtain ⟨npri, hd⟩ := h.1 d
    rw [hd]
    exact Rep.empty npri
  mem d p t := by simp [h.2.1]
  idle t _ := h.2.2 t
  kp _ _ _ _ ht := by cases ht

section

variable (h : Inv c kpq s L)
include h

/-- The queues after `setbackdq` or `setfrontdq`, also when the thread is swapped. -/
theorem Inv.put (hpt : s.CanPut c kpq tp cp kp) (borf : Borf) : ∃ L', Inv c kpq (s.setdq c tp cp kp borf) L' := by
  cases hload : s.load tp with
  | true => exact ⟨_, h.setdq hpt hload borf⟩
  | false =>
    have hs : s.setdq c tp cp kp borf = s.dispSwappedSetrun tp := by
      cases borf
      all_goals exact if_pos (by simp [hload])
    exact ⟨L, hs ▸ h.swapped hload⟩

theorem Inv.dispOwn_none (hmax : (s.disp d).maxrunpri = -1) :
    s.dispOwn c d = (s, none) ∧ below (L d) (s.disp d).npri = [] := by
  refine ⟨by rw [dispOwn, if_pos hmax], eq_nil_iff_forall_not_mem.mpr fun a ha => ?_⟩
  obtain ⟨r, hr, ha⟩ := mem_below.mp ha
  have := (h.rep d).maxrunpri.le r hr (ne_nil_of_mem ha)
  omega

/-- `disp` takes the first thread in the order of the priorities. -/
theorem Inv.dispOwn (d : Q) : (s.dispOwn c d).2 = (below (L d) (s.disp d).npri).head? ∧
    Inv c kpq (s.dispOwn c d).1 fun e p => match (s.dispOwn c d).2 with
      | some tp => (L e p).erase tp
      | none => L e p := by
  have hr := h.rep d
  by_cases hn : (s.disp d).maxrunpri = -1
  · obtain ⟨heq, hnil⟩ := h.dispOwn_none (c := c) hn
    rw [heq, hnil]
    exact ⟨rfl, h⟩
  · obtain ⟨p, hp⟩ := Int.eq_ofNat_of_zero_le (by have := hr.maxrunpri.bottom; omega : 0 ≤ (s.disp d).maxrunpri)
    obtain ⟨tp, l2, s', hL, hd, heq⟩ := h.dispOwn_eq (c := c) hp
    have hq := ((h.mem d p tp).mp (by simp [hL])).1
    obtain ⟨s1, hd1, hin, -⟩ := h.dispdeq (c := c) hq
    obtain rfl : s1 = s' := congrArg Prod.fst (Option.some.inj (hd1.symm.trans hd))
    rw [heq]
    refine ⟨?_, hin⟩
    have hh : between (L d) p (s.disp d).npri = [] := by
      refine eq_nil_iff_forall_not_mem.mpr fun a ha => ?_
      obtain ⟨i, hi, -, ha⟩ := mem_between.mp ha
      have := hr.le_maxrunpri (ne_nil_of_mem ha)
      omega
    rw [below_split (hr.maxrunpri.holds p hp).2, hh, hL]
    rfl

/-- A round of `disp_cpu_inactive` is nothing, a correction of the cached maximum, or a thread moved to another
queue. -/
theorem Inv.inactiveRound (hcp : kpq cp = false) (hkp : kpq kp = true)
    (hc : (s.disp d).npri ≤ (s.disp cp).npri) (hk : (s.disp d).npri ≤ (s.disp kp).npri) :
    ∃ L', Inv c kpq (s.inactiveRound c d cp kp) L' := by
  have hr := h.rep d
  by_cases hg : (s.disp d).maxUnboundPri = -1
  · rw [State.inactiveRound, if_pos hg]
    exact ⟨L, h⟩
  · obtain ⟨pri, hpr⟩ := Int.eq_ofNat_of_zero_le (by have := hr.maxUnboundPri_ge; omega : 0 ≤ (s.disp d).maxUnboundPri)
    simp only [State.inactiveRound, hpr, Int.toNat_natCast]
    cases hf : s.firstUnbound ((s.disp d).q pri) with
    | none => exact ⟨L, (h.dispFixUnboundPri hpr ((firstUnbound_eq_none hr pri).mp hf)).1⟩
    | some tp =>
      have hmem := mem_of_find?_eq_some ((firstUnbound_eq hr pri).symm.trans hf)
      obtain ⟨hq, hd, hp⟩ := (h.mem d pri tp).mp hmem
      obtain ⟨s', heq, hin, hrn, -, hp', -, -, hn⟩ := h.dispdeq (c := c) hq
      simp only [heq]
      refine hin.put ⟨by simp [queued, hrn], hcp, hkp, ?_⟩ .back
      have hlt := hr.lt_npri (ne_nil_of_mem hmem)
      rw [hn, hp', dest]
      split <;> omega

theorem Inv.step (hs : Step c kpq s s') : ∃ L', Inv c kpq s' L' := by
  cases hs with
  | setbackdq tp cp kp hpt => exact h.put hpt .back
  | setfrontdq tp cp kp hpt => exact h.put hpt .front
  | @dispdeq tp _ b heq =>
    cases hq : s.queued tp with
    | true =>
      obtain ⟨s1, he1, hin, -⟩ := h.dispdeq (c := c) hq
      obtain rfl : s1 = s' := congrArg Prod.fst (Option.some.inj (he1.symm.trans heq))
      exact ⟨_, hin⟩
    | false =>
      -- a thread on no queue is left alone
      refine ⟨L, ?_⟩
      rw [State.dispdeq] at heq
      split at heq
      · obtain ⟨rfl, -⟩ := Prod.mk.inj (Option.some.inj heq)
        exact h
      · split at heq
        · obtain ⟨rfl, -⟩ := Prod.mk.inj (Option.some.inj heq)
          exact h
        · simp_all [queued]
  | disp d => exact ⟨_, (h.dispOwn d).2⟩
  | dispGetbest d cp =>
    cases hr : (s.dispGetbest c d cp).2 with
    | none => exact ⟨L, (h.dispGetbest_none hr).1⟩
    | some tp => exact ⟨_, (h.dispGetbest_some hr).2⟩
  | dispCpuInactive hcp hkp hc hk => exact h.inactiveRound hcp hkp hc hk
  | @change tp run load pri bound ho hn =>
    refine ⟨L, h.touch ho ?_ rfl rfl (fun a ha => ?_) fun a ha => ?_⟩
    · simpa [queued] using hn
    · simp [queued, ha]
    · simp [ha]

end

theorem exists_inv (h : Reachable Init (Step c kpq) s) : ∃ L, Inv c kpq s L :=
  h.invariant (P := fun s => ∃ L, Inv c kpq s L) (fun _ h0 => ⟨_, Init.inv h0⟩) fun _ _ ⟨_, hin⟩ hs => hin.step hs

/-- In every run of the operations the dispatch queues are exact priority queues: each list is a NULL-terminated
chain of its threads, the bitmap and the counters agree with the lists, the two maxima are what they are named
after, `disp` takes the first thread of the highest priority, and `disp_getbest` takes the first unbound thread of
the highest priority and does not fail twice in a row while there is one. -/
theorem dispatchQueues_exact (h : Reachable Init (Step c kpq) s) : ∃ L : Q → ℕ → List T,
    (∀ d, Rep c (s.disp d) s.link s.bound (L d)) ∧
    (∀ d p t, t ∈ L d p ↔ s.queued t = true ∧ s.dispQueue t = d ∧ s.pri t = p) ∧
    (∀ d, kpq d = true → ∀ p, ∀ t ∈ L d p, s.bound t = false) ∧
    (∀ tp, s.queued tp = true → ∃ s', s.dispdeq c tp = some (s', true) ∧ Inv c kpq s' fun e p => (L e p).erase tp) ∧
    (∀ tp cp kp, s.CanPut c kpq tp cp kp → s.load tp = true →
      (Inv c kpq (s.setbackdq c tp cp kp) (update L (s.dest c tp cp kp) (update (L (s.dest c tp cp kp)) (s.pri tp)
        (L (s.dest c tp cp kp) (s.pri tp) ++ [tp])))) ∧
      (Inv c kpq (s.setfrontdq c tp cp kp) (update L (s.dest c tp cp kp) (update (L (s.dest c tp cp kp)) (s.pri tp)
        (tp :: L (s.dest c tp cp kp) (s.pri tp)))))) ∧
    (∀ d, (s.dispOwn c d).2 = (below (L d) (s.disp d).npri).head? ∧
      ∀ tp, (s.dispOwn c d).2 = some tp → Inv c kpq (s.dispOwn c d).1 fun e p => (L e p).erase tp) ∧
    (∀ d cp tp, (s.dispGetbest c d cp).2 = some tp →
      (below (L d) (s.disp d).npri).find? (fun t => !s.bound t) = some tp ∧
      Inv c kpq (s.dispGetbest c d cp).1 fun e p => (L e p).erase tp) ∧
    ∀ d cp cp', (∃ p, ∃ t ∈ L d p, s.bound t = false) → (s.dispGetbest c d cp).2 = none →
      ((s.dispGetbest c d cp).1.dispGetbest c d cp').2 ≠ none := by
  obtain ⟨L, hin⟩ := exists_inv h
  refine ⟨L, hin.rep, hin.mem, hin.kp, fun tp hq => ?_, fun tp cp kp hpt hload => ?_, fun d => ?_, fun d cp tp hr => ?_,
    fun d cp cp' hu hr => ?_⟩
  · obtain ⟨s', heq, hi', -⟩ := hin.dispdeq (c := c) hq
    exact ⟨s', heq, hi'⟩
  · exact ⟨hin.setdq hpt hload .back, hin.setdq hpt hload .front⟩
  · refine ⟨(hin.dispOwn d).1, fun tp htp => ?_⟩
    have := (hin.dispOwn (c := c) d).2
    rwa [htp] at this
  · exact hin.dispGetbest_some hr
  · obtain ⟨p, hp⟩ := hu
    obtain ⟨hi', hex, hb⟩ := hin.dispGetbest_none hr
    exact hi'.dispGetbest_ne_none (p := p) hex (by rwa [hb])

/-- Two threads and the queues of one CPU and its partition, nothing queued. -/
def twoThreads : State Bool (Fin 2) where
  disp _ := .empty 160
  link _ := none
  run _ := false
  load _ := true
  dispQueue _ := false
  pri t := if t = 0 then 59 else 100
  bound t := t = 1

/-- A multiprocessor whose kp queue starts at priority 60. -/
def twoThreadsConfig : Config := ⟨5, 2, 60⟩

theorem dispatchQueues_exact_twoThreads :
    let s := (twoThreads.setbackdq twoThreadsConfig 0 false true).setbackdq twoThreadsConfig 1 false true
    (s.dispOwn twoThreadsConfig false).2 = some 1 ∧ ∃ L : Bool → ℕ → List (Fin 2),
      (∀ d, Rep twoThreadsConfig (s.disp d) s.link s.bound (L d)) ∧
      ∀ d p t, t ∈ L d p ↔ s.queued t = true ∧ s.dispQueue t = d ∧ s.pri t = p := by
  refine ⟨by decide, ?_⟩
  have h0 : Init twoThreads := ⟨fun _ => ⟨160, rfl⟩, fun _ => rfl, fun _ => rfl⟩
  have hr : Reachable Init (Step twoThreadsConfig id)
      ((twoThreads.setbackdq twoThreadsConfig 0 false true).setbackdq twoThreadsConfig 1 false true) :=
    .next (.next (.start h0) (.setbackdq 0 false true ⟨by decide, by decide, by decide, by decide⟩))
      (.setbackdq 1 false true ⟨by decide, by decide, by decide, by decide⟩)
  obtain ⟨L, hrp, hmem, -⟩ := dispatchQueues_exact hr
  exact ⟨L, hrp, hmem⟩

end Sol8.Disp
