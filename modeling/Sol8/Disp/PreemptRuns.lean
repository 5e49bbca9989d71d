import Sol8.Disp.Preempt

/-! No preemption is missed. The inserter that raises `disp_maxrunpri` reads `cpu_dispatch_pri` afterwards, and the
CPU writes `cpu_dispatch_pri` before it clears the flags and reads `disp_maxrunpri`. So once the CPU has read a
maximum that is not over its choice, whoever raises the maximum later sees the choice and sets the flags. -/

namespace Sol8.Disp.Preempt

open Function Sol8.Lib State Option

variable {I : Type} {c : Config} {s s' : State I} {a b : Option I} {p q : ℕ}

attribute [local simp] setIns

def InsPc.holds : InsPc → Bool
  | .idle | .enter _ => false
  | _ => true

def CpuPc.holds : CpuPc → Bool
  | .look | .taken _ | .leave _ => true
  | _ => false

/-- Between raising `disp_maxrunpri` and setting the flags. -/
def InsPc.raised : InsPc → Option ℕ
  | .readPri tpri | .setRunrun tpri _ | .setKprunrun tpri _ => some tpri
  | _ => none

/-- The choice of a CPU that has written `cpu_dispatch_pri` and not yet read `disp_maxrunpri`. -/
def CpuPc.choice : CpuPc → Option ℕ
  | .leave p | .clearRunrun p _ | .clearKprunrun p _ | .readMax p _ => some p
  | _ => none

/-- The choice of a CPU that has read a `disp_maxrunpri` not over it. -/
def CpuPc.committed : CpuPc → Option ℕ
  | .judge p m _ => if m ≤ p then some p else none
  | .run p => if 0 ≤ p then some p.toNat else none
  | _ => none

namespace State

def pc (s : State I) : InsPc :=
  match s.lock with
  | some a => s.ins a
  | none => .idle

/-- The flags that a thread of priority `q` on the queue asks for. -/
def Flagged (c : Config) (s : State I) (q : ℤ) : Prop :=
  (c.upreemptpri ≤ q → s.runrun = true) ∧ (c.kpreemptpri ≤ q → s.kprunrun = true)

/-- What holds of the flags for a CPU committed to priority `p`, by how far the insertion is. -/
def Covers (c : Config) (s : State I) (p : ℕ) : InsPc → Prop
  | .readPri _ => True
  | .setRunrun q cpupri => q ≤ p ∨ cpupri = p
  | .setKprunrun q cpupri => q ≤ p ∨ cpupri = p ∧ (c.upreemptpri ≤ q → s.runrun = true)
  | _ => s.maxrunpri ≤ p ∨ s.Flagged c s.maxrunpri

end State

structure Inv (c : Config) (s : State I) : Prop where
  own : ∀ a, s.lock = some a ↔ (s.ins a).holds = true ∨ a = none ∧ s.cpu.holds = true
  cpuIns : s.ins none ≠ .idle → ∃ retry, s.cpu = .inSetfront retry
  max : ∀ q : ℕ, s.sruncnt q ≠ 0 → (q : ℤ) ≤ s.maxrunpri ∨ s.pc = .raise q
  top : ∀ q, s.pc.raised = some q → s.maxrunpri = q
  choice : ∀ p, s.cpu.choice = some p → s.dispatchPri = p
  committed : ∀ p, s.cpu.committed = some p → s.dispatchPri = p ∧ s.Covers c p s.pc

theorem Init.inv (h : Init s) : Inv c s where
  own a := by simp [h.lock, h.ins, h.cpu, InsPc.holds, CpuPc.holds]
  cpuIns hne := absurd (h.ins none) hne
  max q hq := .inl (h.max q hq)
  top q hq := by simp [pc, h.lock, InsPc.raised] at hq
  choice p hp := by simp [h.cpu, CpuPc.choice] at hp
  committed p hp := by simp [h.cpu, CpuPc.committed] at hp

namespace Inv

variable {pc : InsPc}

section

variable (h : Inv c s)
include h

theorem pc_of_holds (ha : (s.ins a).holds = true) : s.lock = some a ∧ s.pc = s.ins a := by
  have hl := (h.own a).mpr (.inl ha)
  exact ⟨hl, by rw [pc, hl]⟩

/-- While the insertion of `a` is inside, the CPU is outside. -/
theorem cpu_not_holds (ha : (s.ins a).holds = true) : s.cpu.holds = false := by
  by_contra hc
  rw [Bool.not_eq_false] at hc
  have hn := (h.own none).mpr (.inr ⟨rfl, hc⟩)
  obtain rfl : a = none := some.inj ((h.pc_of_holds ha).1.symm.trans hn)
  obtain ⟨retry, hr⟩ := h.cpuIns fun hd => by simp [hd, InsPc.holds] at ha
  simp [hr, CpuPc.holds] at hc

theorem max_of_ins (hpc : s.ins a = pc) (ha : pc.holds = true) (q : ℕ)
    (hq : s.sruncnt q ≠ 0) : (q : ℤ) ≤ s.maxrunpri ∨ pc = .raise q := by
  subst hpc
  exact (h.pc_of_holds ha).2 ▸ h.max q hq

theorem top_of_ins (hpc : s.ins a = pc) (ha : pc.holds = true) (q : ℕ) (hq : pc.raised = some q) : s.maxrunpri = q := by
  subst hpc
  exact h.top q ((h.pc_of_holds ha).2 ▸ hq)

/-- A step of an insertion: the CPU stays where it is, and a flag is only set. -/
theorem ofIns (ho : ∀ a, s'.lock = some a ↔ (s'.ins a).holds = true ∨ a = none ∧ s.cpu.holds = true)
    (hn : s'.ins none ≠ .idle → s.ins none ≠ .idle ∨ ∃ retry, s.cpu = .inSetfront retry)
    (hmax : ∀ q : ℕ, s'.sruncnt q ≠ 0 → (q : ℤ) ≤ s'.maxrunpri ∨ s'.pc = .raise q)
    (ht : ∀ q, s'.pc.raised = some q → s'.maxrunpri = q)
    (hv : ∀ p : ℕ, s.dispatchPri = p → s.Covers c p s.pc → s'.Covers c p s'.pc)
    (hk : (s'.cpu, s'.dispatchPri) = (s.cpu, s.dispatchPri)) : Inv c s' := by
  obtain ⟨hcp, hr⟩ := Prod.mk.inj hk
  rw [← hcp] at ho hn
  refine ⟨ho, fun hne => ?_, hmax, ht, hcp ▸ hr ▸ h.choice, fun p hp => ?_⟩
  · rcases hn hne with hne | hs
    · exact hcp ▸ h.cpuIns hne
    · exact hs
  · obtain ⟨hd, hc⟩ := h.committed p (hcp ▸ hp)
    exact ⟨hr.trans hd, hv p hd hc⟩

/-- The bound, where no insertion is about to raise it. -/
theorem max_of_pc (hpc : s.pc = pc) (hne : ∀ q, pc ≠ .raise q) (q : ℕ) (hq : s.sruncnt q ≠ 0) : (q : ℤ) ≤ s.maxrunpri :=
  (h.max q hq).resolve_right fun hr => hne q (hpc ▸ hr)

theorem cpuMove {pc : CpuPc} (hp : s.cpu = pc)
    (hk : (s'.cpu.holds, s'.ins, s'.lock, s'.sruncnt, s'.maxrunpri) = (pc.holds, s.ins, s.lock, s.sruncnt, s.maxrunpri))
    (hr : ∀ retry, pc = .inSetfront retry → s.ins none = .idle) (hch : ∀ p, s'.cpu.choice = some p → s'.dispatchPri = p)
    (hm : ∀ p, s'.cpu.committed = some p → s'.dispatchPri = p ∧ s'.Covers c p s.pc) : Inv c s' := by
  subst hp
  simp only [Prod.mk.injEq] at hk
  obtain ⟨hh, hin, hl, hs, hmax⟩ := hk
  have hpc : s'.pc = s.pc := by rw [pc, pc, hl, hin]
  constructor
  case own =>
    rw [hl, hin, hh]
    exact h.own
  case cpuIns =>
    intro hne
    rw [hin] at hne
    obtain ⟨retry, hc⟩ := h.cpuIns hne
    exact absurd (hr retry hc) hne
  case max =>
    rw [hs, hmax, hpc]
    exact h.max
  case top =>
    rw [hmax, hpc]
    exact h.top
  case choice => exact hch
  case committed =>
    rw [hpc]
    exact hm

theorem cpuLock {pc : CpuPc} (hcp : s.cpu = pc) (hf : s.lock = none ∨ pc.holds = true)
    (hmax : ∀ q : ℕ, s'.sruncnt q ≠ 0 → (q : ℤ) ≤ s'.maxrunpri)
    (hk : (s'.ins, s'.cpu.committed) = (s.ins, none)) (hs : ∀ retry, pc ≠ .inSetfront retry)
    (hl : s'.lock = if s'.cpu.holds then some none else none)
    (hch : ∀ p, s'.cpu.choice = some p → s'.dispatchPri = p) : Inv c s' := by
  subst hcp
  obtain ⟨his, hm⟩ := Prod.mk.inj hk
  have hn : s.ins none = .idle := by
    by_contra hne
    obtain ⟨retry, hc⟩ := h.cpuIns hne
    exact hs retry hc
  have ho (a : Option I) : (s.ins a).holds = false := by
    by_contra hin
    rw [Bool.not_eq_false] at hin
    rcases hf with hf | hh
    · exact nomatch hf.symm.trans (h.pc_of_holds hin).1
    · simp [h.cpu_not_holds hin] at hh
  have hpc : s'.pc = .idle := by
    rw [pc, hl, his]
    cases s'.cpu.holds
    · rfl
    · exact hn
  constructor
  case own =>
    intro a
    rw [hl, his, ho a]
    cases s'.cpu.holds <;> simp [eq_comm]
  case cpuIns => exact fun hne => absurd (his ▸ hn) hne
  case max => exact fun q hq => .inl (hmax q hq)
  case top =>
    intro q hq
    rw [hpc] at hq
    cases hq
  case choice => exact hch
  case committed =>
    intro p hp
    rw [hm] at hp
    cases hp

/-- The bound on the queue while no insertion is inside. -/
theorem max_of_free (hf : s.lock = none ∨ s.cpu.holds = true) (q : ℕ) (hq : s.sruncnt q ≠ 0) : (q : ℤ) ≤ s.maxrunpri := by
  refine (h.max q hq).resolve_right fun hpc => ?_
  rcases hf with hf | hh
  · simp [pc, hf] at hpc
  · have hl := (h.own none).mpr (.inr ⟨rfl, hh⟩)
    have hin : (s.ins none).holds = true := by
      rw [pc, hl] at hpc
      rw [show s.ins none = _ from hpc]
      rfl
    simp [h.cpu_not_holds hin] at hh

theorem covers_of_le (hle : s.maxrunpri ≤ p) : s.Covers c p s.pc := by
  have ht := h.top
  cases hpc : s.pc with
  | readPri => trivial
  | setRunrun q cpupri | setKprunrun q cpupri =>
    have := ht q (hpc ▸ rfl)
    exact Or.inl (by omega)
  | _ => exact Or.inl hle

end

variable [DecidableEq I]

section

variable (h : Inv c s)
include h

/-- The insertion of `a`, which has the lock, goes on to `pc'`, and may change the shared words. -/
theorem advance {pc' : InsPc} (hpc : s.ins a = pc) (hh : (pc.holds && pc'.holds) = true)
    (hk : (s'.lock, s'.ins, s'.cpu, s'.dispatchPri) = (s.lock, update s.ins a pc', s.cpu, s.dispatchPri))
    (hmax : ∀ q : ℕ, s'.sruncnt q ≠ 0 → (q : ℤ) ≤ s'.maxrunpri ∨ pc' = .raise q)
    (ht : ∀ q, pc'.raised = some q → s'.maxrunpri = q)
    (hc : ∀ p : ℕ, s.dispatchPri = p → s.Covers c p pc → s'.Covers c p pc') : Inv c s' := by
  subst hpc
  obtain ⟨ha, ha'⟩ := Bool.and_eq_true_iff.mp hh
  obtain ⟨hlc, hk⟩ := Prod.mk.inj hk
  obtain ⟨hin, hk⟩ := Prod.mk.inj hk
  obtain ⟨hl, hpc⟩ := h.pc_of_holds ha
  have hpc' : s'.pc = pc' := by simp [pc, hlc, hl, hin]
  rw [← hpc] at hc
  rw [← hpc'] at hmax ht hc
  refine h.ofIns (fun b => ?_) (fun hne => .inl fun hd => hne ?_) hmax ht hc hk
  · rw [hlc, hin]
    by_cases hb : b = a
    · subst hb
      simp [hl, ha']
    · rw [update_of_ne hb]
      exact h.own b
  · have hn : none ≠ a := by
      rintro rfl
      simp [hd, InsPc.holds] at ha
    rw [hin, update_of_ne hn, hd]

theorem enter (ha : s.ins a = .enter p) (hf : s.lock = none) :
    Inv c ({ s with lock := some a }.setIns a (.insert p)) := by
  have hpc : s.pc = .idle := by simp [pc, hf]
  have hpc' : ({ s with lock := some a }.setIns a (.insert p) : State I).pc = .insert p := by simp [pc]
  have ho (b : Option I) : ¬ ((s.ins b).holds = true ∨ b = none ∧ s.cpu.holds = true) := by
    rw [← h.own b, hf]
    simp
  refine h.ofIns (fun b => ?_) (fun hne => .inl fun hd => hne ?_) (fun q hq => .inl (h.max_of_pc hpc nofun q hq)) ?_ ?_ rfl
  · by_cases hb : b = a
    · subst hb
      simp [InsPc.holds]
    · have hba : ¬ a = b := fun hab => hb hab.symm
      simp only [setIns, update_of_ne hb, some.injEq, hba, false_iff]
      exact ho b
  · have hn : none ≠ a := by
      rintro rfl
      cases ha.symm.trans hd
    simp only [setIns, update_of_ne hn, hd]
  · rw [hpc']
    exact nofun
  · rw [hpc, hpc']
    exact fun _ _ hc => hc

theorem leave (ha : s.ins a = .leave) : Inv c ({ s with lock := none }.setIns a .idle) := by
  have ho : (s.ins a).holds = true := by rw [ha]; rfl
  obtain ⟨hl, hpc⟩ := h.pc_of_holds ho
  rw [ha] at hpc
  refine h.ofIns (fun b => ?_) (fun hne => .inl fun hd => hne ?_) (fun q hq => .inl (h.max_of_pc hpc nofun q hq)) nofun ?_ rfl
  · have hp : ¬ (b = none ∧ s.cpu.holds = true) := by simp [h.cpu_not_holds ho]
    by_cases hb : b = a
    · subst hb
      simpa [InsPc.holds] using hp
    · have hno := mt (h.own b).mpr (by rw [hl]; exact fun hab => hb (some.inj hab).symm)
      simp only [setIns, update_of_ne hb, reduceCtorEq, false_iff]
      exact hno
  · by_cases hn : none = a
    · simp [hn]
    · simp only [setIns, update_of_ne hn, hd]
  · rw [hpc]
    exact fun _ _ hc => hc

theorem insStep (hs : s.insStep c a = some s') : Inv c s' := by
  unfold State.insStep at hs
  generalize hpc : s.ins a = pc at hs
  cases pc with
  | idle => cases hs
  | enter tpri =>
    obtain ⟨hf, ⟨⟩⟩ := ite_none_right_eq_some.mp hs
    exact h.enter hpc hf
  | insert tpri =>
    have hle (q : ℕ) (hq : update s.sruncnt tpri (s.sruncnt tpri + 1) q ≠ 0) (hne : q = tpri → s.sruncnt q ≠ 0) :
        (q : ℤ) ≤ s.maxrunpri := by
      have hq : s.sruncnt q ≠ 0 := by
        by_cases hqt : q = tpri
        · exact hne hqt
        · rwa [update_of_ne hqt] at hq
      exact (h.max_of_ins hpc rfl q hq).resolve_right nofun
    cases hs
    split
    next hz =>
      -- the list has threads
      refine h.advance hpc rfl rfl (fun q hq => .inl (hle q hq ?_)) nofun fun p _ hc => hc
      rintro rfl
      exact hz
    · refine h.advance hpc rfl rfl (fun q hq => ?_) nofun fun p _ hc => hc
      by_cases hqt : q = tpri
      · exact .inr (by rw [hqt])
      · exact .inl (hle q hq fun hc => absurd hc hqt)
  | raise tpri =>
    cases hs
    split
    next hlt =>
      refine h.advance hpc rfl rfl (fun q hq => .inl ?_) (fun q hq => ?_) fun _ _ _ => trivial
      · rcases h.max_of_ins hpc rfl q hq with hle | hr
        · exact hle.trans hlt.le
        · obtain rfl : tpri = q := InsPc.raise.inj hr
          exact le_rfl
      · obtain rfl : tpri = q := some.inj hq
        rfl
    next hlt =>
      refine h.advance hpc rfl rfl (fun q hq => .inl ?_) nofun fun p _ hc => hc
      rcases h.max_of_ins hpc rfl q hq with hle | hr
      · exact hle
      · obtain rfl : tpri = q := InsPc.raise.inj hr
        exact Int.not_lt.mp hlt
  | readPri tpri =>
    cases hs
    exact h.advance hpc rfl rfl (fun q hq => .inl ((h.max_of_ins hpc rfl q hq).resolve_right nofun))
      (fun q hq => h.top_of_ins hpc rfl q hq) fun p hp _ => Or.inr hp
  | setRunrun tpri cpupri =>
    have hmax (q : ℕ) (hq : s.sruncnt q ≠ 0) := (h.max_of_ins hpc rfl q hq).resolve_right nofun
    have ht := h.top_of_ins hpc rfl
    cases hs
    split
    · refine h.advance hpc rfl rfl (fun q hq => .inl (hmax q hq)) ht fun p _ hc => ?_
      exact hc.imp_right fun hp => ⟨hp, fun _ => rfl⟩
    next hst =>
      refine h.advance hpc rfl rfl (fun q hq => .inl (hmax q hq)) ht fun p _ hc => ?_
      -- the flag was not set because it is not due, or the thread is no better
      by_cases hle : tpri ≤ p
      · exact Or.inl hle
      · have hp : cpupri = p := hc.resolve_left hle
        exact Or.inr ⟨hp, fun hu => absurd ⟨by omega, by omega, hu⟩ hst⟩
  | setKprunrun tpri cpupri =>
    have hmax (q : ℕ) (hq : s.sruncnt q ≠ 0) := (h.max_of_ins hpc rfl q hq).resolve_right nofun
    have ht : s.maxrunpri = tpri := h.top_of_ins hpc rfl tpri rfl
    cases hs
    split
    · refine h.advance hpc rfl rfl (fun q hq => .inl (hmax q hq)) nofun fun p _ hc => ?_
      refine hc.imp (fun hle => ?_) fun hp => ⟨?_, fun _ => rfl⟩
      · exact ht ▸ Int.ofNat_le.mpr hle
      · exact ht ▸ hp.2
    next hst =>
      refine h.advance hpc rfl rfl (fun q hq => .inl (hmax q hq)) nofun fun p _ hc => ?_
      by_cases hle : tpri ≤ p
      · exact Or.inl (ht ▸ Int.ofNat_le.mpr hle)
      · obtain ⟨hp, hn⟩ := hc.resolve_left hle
        refine Or.inr ⟨ht ▸ hn, fun hk => absurd ⟨by omega, by omega, ht ▸ hk⟩ hst⟩
  | leave =>
    cases hs
    exact h.leave hpc

theorem call (ha : s.ins a = .idle) (hp : a = none → ∃ retry, s.cpu = .inSetfront retry) (p : ℕ) :
    Inv c (s.setIns a (.enter p)) := by
  have hf : s.lock ≠ some a := by
    rw [Ne, h.own a, ha]
    rintro (hin | ⟨hn, hin⟩)
    · cases hin
    · obtain ⟨retry, hr⟩ := hp hn
      rw [hr] at hin
      cases hin
  have hpc : (s.setIns a (.enter p)).pc = s.pc := by
    cases hl : s.lock with
    | none => simp [pc, hl]
    | some b =>
      have hb : b ≠ a := fun hb => hf (hb ▸ hl)
      simp [pc, hl, hb]
  refine h.ofIns (fun b => ?_) (fun hne => ?_) (hpc ▸ h.max) (hpc ▸ h.top) (by rw [hpc]; exact fun _ _ hc => hc) rfl
  · by_cases hb : b = a
    · subst hb
      have ho := mt (h.own b).mpr hf
      rw [ha] at ho
      simp only [setIns, update_self]
      exact iff_of_false hf ho
    · simp only [setIns, update_of_ne hb]
      exact h.own b
  · by_cases hna : a = none
    · exact .inr (hp hna)
    · refine .inl ?_
      simpa only [setIns, update_of_ne (Ne.symm hna)] using hne

end

end Inv

theorem le_highest {f : ℕ → ℕ} {n : ℕ} (hp : p < n) (hf : f p ≠ 0) : (p : ℤ) ≤ highest f n := by
  induction n with
  | zero => omega
  | succ n ih =>
    rw [highest]
    split
    · omega
    next hz =>
      rcases Nat.lt_succ_iff_lt_or_eq.mp hp with hlt | rfl
      · exact ih hlt
      · exact absurd hf hz

/-- Taking a thread of the highest priority leaves a bound. -/
theorem take_max (hmax : ∀ q : ℕ, s.sruncnt q ≠ 0 → (q : ℤ) ≤ s.maxrunpri) (hp : s.maxrunpri ≤ p) (q : ℕ)
    (hq : (s.take p).sruncnt q ≠ 0) : (q : ℤ) ≤ (s.take p).maxrunpri := by
  have ho : s.sruncnt q ≠ 0 := by
    by_cases hqp : q = p
    · subst hqp
      simp only [take, update_self] at hq
      omega
    · simpa only [take, update_of_ne hqp] using hq
  have hle := hmax q ho
  simp only [take] at hq ⊢
  split
  next hz =>
    refine le_highest ?_ hq
    have hqp : q ≠ p := by
      rintro rfl
      exact hq hz
    omega
  · exact hle

variable [DecidableEq I]

theorem Inv.cpuStep {ch : State.Choice} (h : Inv c s) (hs : s.cpuStep ch = some s') : Inv c s' := by
  have ht (p : ℕ) : ∀ r, some p = some r → (p : ℤ) = r := fun r hr => by rw [some.inj hr]
  unfold State.cpuStep at hs
  split at hs
  next hcp =>
    cases hs
    exact h.cpuMove hcp rfl nofun nofun nofun
  next hcp =>
    cases hs
    split
    all_goals exact h.cpuMove hcp rfl nofun nofun nofun
  next pri hcp =>
    cases hs
    exact h.cpuMove hcp rfl nofun (ht pri) nofun
  iterate 2
    next hcp =>
      cases hs
      exact h.cpuMove hcp rfl nofun nofun nofun
  next hcp =>
    -- entering the lock
    obtain ⟨hf, ⟨⟩⟩ := ite_none_right_eq_some.mp hs
    exact h.cpuLock hcp (.inl hf) (h.max_of_free (.inl hf)) rfl nofun rfl nofun
  next hcp =>
    have hmax := h.max_of_free (.inr (hcp ▸ rfl))
    split at hs
    · cases hs
      exact h.cpuLock hcp (.inr rfl) hmax rfl nofun rfl nofun
    · cases hs
      have hl := (h.own none).mpr (.inr ⟨rfl, by rw [hcp]; rfl⟩)
      exact h.cpuLock hcp (.inr rfl) (take_max hmax (Int.self_le_toNat _)) rfl nofun hl nofun
  next hcp =>
    obtain ⟨-, ⟨⟩⟩ := ite_none_right_eq_some.mp hs
    exact h.cpuLock hcp (.inr rfl) (h.max_of_free (.inr (hcp ▸ rfl))) rfl nofun rfl nofun
  next pri hcp =>
    cases hs
    exact h.cpuMove hcp rfl nofun (ht pri) nofun
  next pri hcp =>
    cases hs
    refine h.cpuLock hcp (.inr rfl) (h.max_of_free (.inr (hcp ▸ rfl))) rfl nofun rfl fun p hp => h.choice p ?_
    rw [hcp]
    exact hp
  next pri hcp =>
    cases hs
    exact h.cpuMove hcp rfl nofun (ht pri) nofun
  next hcp =>
    cases hs
    exact h.cpuMove hcp rfl nofun nofun nofun
  -- the two clears of `disp_ratify`
  iterate 2
    next tpri retry hcp =>
      cases hs
      refine h.cpuMove hcp rfl nofun (fun p hp => h.choice p ?_) nofun
      rw [hcp]
      exact hp
  next tpri retry hcp =>
    cases hs
    refine h.cpuMove hcp rfl nofun nofun fun p hp => ?_
    obtain ⟨hle, ⟨⟩⟩ := ite_none_right_eq_some.mp hp
    exact ⟨h.choice tpri (hcp ▸ rfl), h.covers_of_le hle⟩
  next tpri maxpri retry maxkpri hcp =>
    cases hs
    by_cases hj : (tpri : ℤ) < if maxpri < maxkpri then maxkpri else maxpri
    · rw [if_pos hj]
      exact h.cpuMove hcp rfl nofun nofun nofun
    · rw [if_neg hj]
      have hle : maxpri ≤ tpri := by
        split at hj <;> omega
      refine h.cpuMove hcp rfl nofun nofun fun p hp => ?_
      obtain rfl : tpri = p := by simpa [CpuPc.committed] using hp
      exact h.committed tpri (by rw [hcp]; exact if_pos hle)
  next tpri retry pri hcp =>
    cases hs
    exact h.cpuMove hcp rfl nofun nofun nofun
  next tpri retry hcp =>
    cases hs
    have hm : Inv c { s with cpu := .inSetfront retry } := h.cpuMove hcp rfl nofun nofun nofun
    refine hm.call (a := none) ?_ (fun _ => ⟨retry, rfl⟩) tpri
    by_contra hne
    obtain ⟨retry', hc⟩ := h.cpuIns hne
    cases hcp.symm.trans hc
  next tpri retry hcp =>
    cases hs
    exact h.cpuMove hcp rfl nofun nofun nofun
  next retry hcp =>
    obtain ⟨hd, ⟨⟩⟩ := ite_none_right_eq_some.mp hs
    cases retry
    all_goals exact h.cpuMove hcp rfl (fun _ _ => hd) nofun nofun
  -- the idle thread
  iterate 3
    next hcp =>
      cases hs
      exact h.cpuMove hcp rfl nofun nofun nofun
  · cases hs

theorem Inv.step (h : Inv c s) (hs : Step c s s') : Inv c s' := by
  obtain ⟨e, he⟩ := hs
  cases e with
  | call i tpri =>
    simp only [exec] at he
    split at he
    next hd =>
      cases he
      exact h.call hd nofun tpri
    · cases he
  | ins a => exact h.insStep he
  | cpu ch => exact h.cpuStep he

/-- No preemption is missed: whenever the CPU runs a thread of priority `p` that `disp_ratify` has returned and no
insertion is inside the lock, a queued thread of a higher priority `q` has set `cpu_runrun` if `q` is at least
`upreemptpri`, and `cpu_kprunrun` if it is at least `kpreemptpri`. -/
theorem no_missed_preemption (h : Reachable Init (Step c) s) (hp : s.cpu = .run p)
    (hins : ∀ a, (s.ins a).holds = false) (q : ℕ) (hpq : p < q) (hq : s.sruncnt q ≠ 0) :
    (c.upreemptpri ≤ q → s.runrun = true) ∧ (c.kpreemptpri ≤ q → s.kprunrun = true) := by
  have hv : Inv c s := h.invariant (fun _ h0 => Init.inv h0) fun _ _ hi hs => hi.step hs
  have hlc : s.lock = none := by
    cases hl : s.lock with
    | none => rfl
    | some a =>
      rcases (hv.own a).mp hl with hin | ⟨-, hin⟩
      · simp [hins a] at hin
      · simp [hp, CpuPc.holds] at hin
  have hpc : s.pc = .idle := by simp [pc, hlc]
  obtain ⟨-, hc⟩ := hv.committed p (by simp [hp, CpuPc.committed])
  have hle := hv.max_of_free (.inl hlc) q hq
  rw [hpc] at hc
  rcases hc with hmax | ⟨hr, hk⟩
  · omega
  · exact ⟨fun hu => hr (hu.trans hle), fun hkp => hk (hkp.trans hle)⟩

def emptyCpu : State Unit where
  sruncnt _ := 0
  maxrunpri := -1
  dispatchPri := -1
  runrun := false
  kprunrun := false
  lock := none
  ins _ := .idle
  cpu := .reschedule

/-- Two threads come, the CPU takes the second and commits to it; then one of a higher priority comes. -/
def overtaken : List (Event Unit) :=
  let put (q : ℕ) : List (Event Unit) := .call () q :: List.replicate 7 (Event.ins (some ()))
  put 10 ++ put 40 ++
    [.cpu (.kp (-1)), .cpu .next, .cpu .next, .cpu .next, .cpu .next, .cpu .next, .cpu .next, .cpu .next,
      .cpu (.kp (-1))] ++ put 110

theorem no_missed_preemption_overtaken :
    ∃ s, runList (exec ⟨0, 100⟩) emptyCpu overtaken = some s ∧ s.cpu = .run 40 ∧ s.sruncnt 110 = 1 ∧
      s.runrun = true ∧ s.kprunrun = true := by
  have hm : (runList (exec ⟨0, 100⟩) emptyCpu overtaken).isSome := by decide
  obtain ⟨s, hs⟩ := isSome_iff_exists.mp hm
  have hv : (runList (exec ⟨0, 100⟩) emptyCpu overtaken).map (fun s => (s.cpu, s.sruncnt 110, s.ins none, s.ins (some ()))) =
    some (.run 40, 1, .idle, .idle) := by decide
  rw [hs] at hv
  simp only [map_some, some.injEq, Prod.mk.injEq] at hv
  obtain ⟨hc, hcn, hn, hm⟩ := hv
  have h0 : Init emptyCpu := ⟨rfl, fun _ => rfl, rfl, fun _ hq => absurd rfl hq, .inl rfl⟩
  have hr : Reachable Init (Step ⟨0, 100⟩) s :=
    Reachable.runList (fun _ e _ he => ⟨e, he⟩) (.start h0) hs
  have hin (a : Option Unit) : (s.ins a).holds = false := by
    cases a with
    | none => rw [hn]; rfl
    | some u => rw [hm]; rfl
  have := no_missed_preemption (p := 40) hr hc hin 110 (by decide) (by rw [hcn]; decide)
  exact ⟨s, hs, hc, hcn, this.1 (by decide), this.2 (by decide)⟩

end Sol8.Disp.Preempt
