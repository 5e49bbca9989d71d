import Sol8.Inet.IreRefsSteps

/-! Routes are unlinked and released as they should be in every run in which nobody deletes an entry between the store
that puts it on its chain and the store of its bucket. -/

namespace Sol8.Inet.IreRefs

open Function Sol8.Lib List Option

variable {T I B A : Type}

section Steps

variable {f : Fields I B A} {w w' : World T I B} {chain : B → List I} {phase : I → Phase T} {t : T} {p q : Pc I B}
  {b : B} {i : I} [DecidableEq T] [DecidableEq I] [DecidableEq B]

/-- No counter is at its maximum, and no thread that calls `ire_delete` reads the bucket of an entry which has been put on
its chain while its bucket has not been stored. -/
def Orderly (w : World T I B) (e : Event T I B) : Prop :=
  (∀ i, w.ireRefcnt i + 1 < 2 ^ 32) ∧ (∀ b, w.irbRefcnt b + 1 < 2 ^ 32) ∧
    ∀ t, e = .step t → ∀ k i, w.pc t = .del k i → ∀ u, w.pc u ≠ .linked i

def Step [DecidableEq A] (f : Fields I B A) (w w' : World T I B) : Prop := ∃ e, Orderly w e ∧ exec f w e = some w'

structure Init (w : World T I B) : Prop where
  links : w.links = ⟨fun _ => none, fun _ => none, fun _ => none⟩
  writer : w.writer = fun _ => none
  readers : w.readers = fun _ => []
  irbRefcnt : w.irbRefcnt = fun _ => 0
  ireBucket : w.ireBucket = fun _ => none
  ireRefcnt : w.ireRefcnt = fun _ => 0
  heap : w.heap = []
  holders : w.holders = fun _ => []
  refs : w.refs = []
  pc : w.pc = fun _ => .idle
  trace : w.trace = []

def Good (f : Fields I B A) (w : World T I B) : Prop := ∃ chain phase, Inv f w chain phase

omit [DecidableEq T] in
theorem Init.good (h : Init w) : Good f w := by
  refine ⟨fun _ => [], fun _ => .absent, ⟨?_, ?_, ?_, ?_⟩, ⟨?_, ?_, ?_⟩, ⟨nofun, fun _ => ⟨nofun, nofun⟩⟩, fun b => ?_,
    fun b _ => ?_, ⟨fun _ _ => rfl, fun i _ => ?_, nofun, nofun⟩, ⟨fun i => ?_, ?_⟩, fun t => ?_, ?_⟩
  · rw [h.pc, h.writer]
    exact fun _ _ => ⟨nofun, nofun⟩
  · rw [h.pc, h.readers]
    exact fun _ _ => ⟨nofun, nofun⟩
  · exact fun b _ => congrFun h.readers b
  · rw [h.readers]
    exact fun _ => nodup_nil
  · rw [h.pc, h.holders]
    exact fun _ _ => ⟨nofun, nofun⟩
  · rw [h.holders]
    exact fun _ => nodup_nil
  · rw [h.holders, h.irbRefcnt]
    exact fun _ => rfl
  · rw [h.links]
    rfl
  · rw [h.links]
    exact ⟨⟨nodup_nil, .head b, rfl, rfl⟩, fun _ _ _ => rfl⟩
  · rw [h.links]
    exact ⟨rfl, rfl⟩
  · rw [h.ireRefcnt, h.refs]
    rfl
  · rw [h.refs]
    nofun
  · rw [h.pc]
    exact fun i => ⟨nofun, nofun⟩
  · rw [h.trace]
    rfl

omit [DecidableEq I] [DecidableEq B] in
theorem World.free_iff : w.free b = true ↔ w.writer b = none ∧ w.readers b = [] := by
  simp [World.free]

section

variable (h : Inv f w chain phase)
include h

omit [DecidableEq T] in
theorem Inv.refcnt_of_unheld (hi : phase i = .linked) (hr : ∀ u, (u, i) ∉ w.refs) : w.ireRefcnt i = 1 := by
  rw [h.counts.count, hi, countP_eq_zero.mpr]
  · rfl
  · rintro ⟨u, j⟩ hmem
    rw [decide_eq_true_iff]
    rintro rfl
    exact hr u hmem

theorem Inv.ireAdd [DecidableEq A] (ht : w.pc t = .adding i) (hmax : ∀ i, w.ireRefcnt i + 1 < 2 ^ 32) :
    Inv f (ireAdd f w t i) chain phase := by
  obtain ⟨ho, hp⟩ : At f (w.view chain phase) t (.adding i) := ht ▸ h.inside t
  have hw : w.writer (f.home i) = some t := (h.locks.writing t _).mp (ht ▸ rfl)
  have hf := h.full_of_writer hw (by rw [ht]; rintro ⟨⟩)
  rw [IreRefs.ireAdd]
  split
  next j hj =>
    have hmem : j ∈ chain (f.home i) := Hlists.mem_of_find (h.forward _) hj
    refine h.refhold ⟨ht, rfl, by rintro _ ⟨⟩, rfl, rfl, rfl⟩ ?_ (hmax j) (.inr (.inr ?_)) ⟨ho, hp⟩
    · rw [h.sorted.phase hmem]
      trivial
    · rw [h.sorted.home _ j hmem]
      exact hw
  · have hs : w.links.Spells (f.home i) ([] ++ chain (f.home i)) := hf.spells
    obtain ⟨l1, l2, hl, hg⟩ := hs.walk rfl (fun j => f.addr i != f.addr j) w.heap.length
    rw [hl] at hs
    obtain ⟨l1', l2', hl', hs'⟩ := hs.walk hg (fun j => f.addr i == f.addr j) w.heap.length
    exact h.prepare ht (hl.trans hl') hs'

theorem Inv.ireDelete {k : Caller I B} (ht : w.pc t = .delEnter k i b)
    (hw : w.writer b = none) (hr : w.readers b = []) : Inv f (ireDelete w t k i b) chain phase := by
  obtain ⟨ho, hk, hb, hp⟩ : At f (w.view chain phase) t (.delEnter k i b) := ht ▸ h.inside t
  have hrt : At f (w.view chain phase) t k.pc := by
    cases k with
    | holder => exact ho
    | walker b' j =>
      refine ⟨ho, fun x hx => ?_⟩
      cases hx
      exact hk.1 ▸ hk.2
  have hl : RwLocks (Pc.writes f) Pc.reads w.writer w.readers (update w.pc t k.pc) :=
    h.locks.move (by rw [ht, Caller.writes_pc]; rfl) (by rw [ht, Caller.reads_pc]; rfl)
  rw [IreRefs.ireDelete]
  split
  · exact h.turn ht rfl (by rintro _ ⟨⟩) hl k.walks_pc hrt
  next hbc =>
    split
    · exact h.turn ht rfl (by rintro _ ⟨⟩) hl k.walks_pc hrt
    next hc =>
      have hh : w.holders b = [] := by
        rw [← length_eq_zero_iff, ← h.walks.count]
        exact not_not.mp hc
      have hi : i ∈ chain b := by
        by_contra hi
        exact hbc (((h.full_of_free hw).back_eq_none hb).mpr hi)
      have hkh : k = .holder := by
        cases k with
        | holder => rfl
        | walker b' j =>
          -- a walker holds the bucket of the entry
          have hmem : t ∈ w.holders b' := (h.walks.inside t b').mp (ht ▸ rfl)
          obtain rfl : b' = b := (h.sorted.home b' i hk.2).symm.trans hb
          rw [hh] at hmem
          exact absurd hmem not_mem_nil
      exact h.turn ht rfl (by rintro _ ⟨⟩) (h.locks.enter hw hr (ht ▸ rfl) rfl (ht ▸ rfl)) rfl
        ⟨ho, hkh, hh, hi⟩

theorem Inv.drop {l : List I} (ht : Turn f w t q p)
    (ho : (w.view chain phase).Owed t l) (hi : i ∈ l) (hmax : w.ireRefcnt i < 2 ^ 32)
    (hat : (∀ x, update phase i .dropped x = .unlinked t ↔ x ∈ l ∧ x ≠ i) →
      At f (w.view chain (update phase i .dropped)) t p) :
    Inv f ((drop w i).goto t p) chain (update phase i .dropped) := by
  have hp : phase i = .unlinked t := (ho i).mpr hi
  refine h.lose (r := .dropped) ht (.inr hp) (.inl rfl) ?_ hmax ?_ (hat fun x => ?_)
  · rw [hp]
    exact .rfl
  · rw [life_update]
    exact h.lawful.snoc (if_pos (congrArg Phase.life hp))
  · rw [← ho x]
    by_cases hx : x = i <;> simp [hx, World.view]

theorem Inv.goOn [DecidableEq A] (hib : ∀ b, w.irbRefcnt b + 1 < 2 ^ 32)
    (hir : ∀ i, w.ireRefcnt i + 1 < 2 ^ 32) (hdl : ∀ k i, w.pc t = .del k i → ∀ u, w.pc u ≠ .linked i)
    (he : goOn f w t (w.pc t) = some w') : Good f w' := by
  have hat := h.inside t
  generalize hpc : w.pc t = q at hat he
  cases q with
  | idle | looking => cases he
  | addEnter i =>
    obtain ⟨hfr, ⟨⟩⟩ := ite_none_right_eq_some.mp he
    obtain ⟨hw, hr⟩ := World.free_iff.mp hfr
    exact ⟨_, _, h.turn hpc rfl nofun (h.locks.enter hw hr (hpc ▸ rfl) rfl (hpc ▸ rfl)) rfl hat⟩
  | adding i =>
    cases he
    exact ⟨_, _, h.ireAdd hpc hir⟩
  | linking i c =>
    cases he
    exact h.link hpc
  | linked i =>
    cases he
    exact ⟨_, _, h.bucket hpc⟩
  | bucketed i =>
    obtain ⟨how, hph, hrf⟩ := hat
    cases he
    refine ⟨_, _, h.goto { pc := hpc } ⟨how, hph, hrf, ?_⟩⟩
    exact h.refcnt_of_unheld hph hrf
  | counting i n =>
    obtain ⟨how, hph, hrf, hn⟩ := hat
    have hwr : w.writer (f.home i) = some t := (h.locks.writing t _).mp (hpc ▸ rfl)
    obtain rfl : n = w.ireRefcnt i := hn.trans (h.refcnt_of_unheld hph hrf).symm
    cases he
    refine ⟨_, _, h.refhold (p := .addExit i) { pc := hpc } ?_ (hir i) (.inr (.inr hwr)) how⟩
    rw [show phase i = .linked from hph]
    trivial
  | addExit i =>
    cases he
    exact ⟨_, _, h.turn hpc rfl nofun (h.locks.exit (hpc ▸ rfl) rfl (hpc ▸ rfl)) rfl hat⟩
  | addDup i =>
    obtain ⟨how, hph⟩ := hat
    cases he
    exact ⟨_, _, h.turn hpc rfl nofun (h.locks.exit (hpc ▸ rfl) rfl (hpc ▸ rfl)) rfl
      ⟨how, trivial, fun _ => .inr hph⟩⟩
  | lookExit b =>
    cases he
    exact ⟨_, _, h.turn hpc rfl nofun (h.locks.exitRead (hpc ▸ rfl) rfl (hpc ▸ rfl)) rfl hat⟩
  | walkStart b =>
    cases he
    refine ⟨_, _, h.goto { pc := hpc } ⟨hat, fun i hi => ?_⟩⟩
    rw [(h.forward b).head] at hi
    exact mem_of_head? hi
  | walking b o =>
    obtain ⟨how, hmem⟩ := hat
    cases o with
    | none =>
      obtain ⟨hfr, he⟩ := ite_none_right_eq_some.mp he
      obtain rfl := some.inj he
      obtain ⟨hw, hr⟩ := World.free_iff.mp hfr
      exact ⟨_, _, h.irbRefrele hpc hw hr (Nat.lt_of_succ_lt (hib b))⟩
    | some i =>
      cases he
      refine ⟨_, _, h.goto { pc := hpc } ⟨how, fun j hj => ?_⟩⟩
      obtain ⟨l1, l2, hl⟩ := append_of_mem (show i ∈ chain b from hmem i rfl)
      have hf := h.forward b
      rw [hl] at hf
      rw [hf.next_eq] at hj
      change j ∈ chain b
      rw [hl]
      exact mem_append_right _ (mem_cons_of_mem i (mem_of_head? hj))
  | del k i =>
    obtain ⟨how, hk, hhl⟩ := hat
    have hbc : (phase i).Placed → w.ireBucket i = some (f.home i) := fun hp =>
      (h.entries.placed i hp).resolve_right fun ⟨u, hu⟩ => hdl k i hpc u hu
    have hpl : k ≠ .holder → (phase i).Placed := by
      intro hne
      cases k with
      | holder => exact absurd rfl hne
      | walker b j =>
        rw [h.sorted.phase hk.2]
        trivial
    rw [IreRefs.goOn] at he
    split at he
    next hnn =>
      cases he
      have hnt : ¬ (phase i).Placed := fun hp => by
        cases hnn.symm.trans (hbc hp)
      have hkh : k = .holder := by
        by_contra hne
        exact hnt (hpl hne)
      exact ⟨_, _, h.goto { pc := hpc }
        ⟨how, hkh, (hhl hkh).resolve_left fun hr => hnt (h.counts.placed t i hr)⟩⟩
    next irb hib =>
      cases he
      have hp : (phase i).Placed := by
        by_cases hkh : k = .holder
        · rcases hhl hkh with hr | hc
          · exact h.counts.placed t i hr
          · cases hib.symm.trans (h.entries.created i t hc)
        · exact hpl hkh
      exact ⟨_, _, h.goto { pc := hpc } ⟨how, hk, some.inj ((hbc hp).symm.trans hib), hp⟩⟩
  | discard k i =>
    obtain ⟨how, rfl, hph⟩ := hat
    replace hph : phase i = .created t := hph
    obtain rfl := some.inj he
    refine ⟨chain, update phase i .discarded, h.lose (p := .idle) { pc := hpc } (.inl hph) (.inr rfl) ?_
      (Nat.lt_of_succ_lt (hir i)) ?_ fun x => ?_⟩
    · rw [hph]
      exact .rfl
    · rw [life_update_same (hph ▸ rfl)]
      exact h.lawful
    · have hne : phase i ≠ .unlinked t := by
        rw [hph]
        nofun
      have hs : update phase i .discarded x = .unlinked t ↔ phase x = .unlinked t := update_iff (by nofun) hne x
      exact hs.trans (how x)
  | delEnter k i b =>
    obtain ⟨how, hk, hb, hp⟩ := hat
    obtain ⟨hfr, ⟨⟩⟩ := ite_none_right_eq_some.mp he
    obtain ⟨hw, hr⟩ := World.free_iff.mp hfr
    exact ⟨_, _, h.ireDelete hpc hw hr⟩
  | delUnlink k i b =>
    obtain ⟨how, rfl, hh, hi⟩ := hat
    cases he
    obtain ⟨l1, l2, hl⟩ := append_of_mem hi
    refine ⟨_, _, h.takeOff { pc := hpc } rfl hl hh rfl fun hb hd hu _ => ⟨hu [] how, rfl, hb, ?_⟩⟩
    · change Detached f _ b (update chain b (l1 ++ l2) b) i
      rwa [update_self]
  | delClear k i b =>
    obtain ⟨how, rfl, hb, hd⟩ := hat
    cases he
    exact ⟨_, _, h.clear hpc rfl nofun hb ((how i).mpr mem_cons_self) hd
      (h.locks.exit (hpc ▸ rfl) rfl (hpc ▸ rfl)) rfl ⟨how, rfl⟩⟩
  | delRefrele k i =>
    obtain ⟨how, rfl⟩ := hat
    obtain rfl := some.inj he
    exact ⟨chain, _, h.drop (p := .idle) { pc := hpc } how mem_cons_self (Nat.lt_of_succ_lt (hir i))
      fun hu x => (hu x).trans (by simp)⟩
  | unlinking b o list =>
    obtain ⟨⟨hh, l1, l2, hl, ho⟩, hls⟩ := hat
    replace hl : chain b = l1 ++ l2 := hl.trans (by rw [append_nil])
    cases o with
    | none =>
      cases he
      exact ⟨_, _, h.turn hpc rfl nofun (h.locks.exit (hpc ▸ rfl) rfl (hpc ▸ rfl)) rfl hls⟩
    | some i =>
      obtain ⟨l2, rfl⟩ : ∃ l, l2 = i :: l := List.head?_eq_some_iff.mp ho.symm
      cases he
      have hnx : w.links.next i = l2.head? := by
        have hf := h.forward b
        rw [hl] at hf
        exact hf.next_eq
      split_ifs with hc
      · exact ⟨_, _, h.goto { pc := hpc } ⟨⟨hh, l1, l2, show chain b = _ by simpa using hl, hnx⟩, hls⟩⟩
      · refine ⟨_, _, h.goto { pc := hpc } ⟨⟨hh, l1 ++ [i], l2, ?_, hnx⟩, hls⟩⟩
        change chain b = _
        simpa using hl
  | unlinkOut b i o list =>
    obtain ⟨⟨hh, l1, l2, hl, ho⟩, l, hls, how, hnd⟩ := hat
    replace hl : chain b = l1 ++ i :: l2 := hl.trans (by simp)
    cases he
    have ht : i ∉ l := fun hmem => by
      have hph := h.sorted.phase (show i ∈ chain b by simp [hl])
      cases hph.symm.trans ((how i).mpr hmem)
    refine ⟨_, _, h.takeOff { pc := hpc } rfl hl hh rfl fun hb hd hu hn =>
      ⟨⟨hh, l1, l2, ?_, ho⟩, ⟨l, hls.congr fun x hx => ?_, hu l how, nodup_cons.mpr ⟨ht, hnd⟩⟩, hb, ?_⟩⟩
    · change update chain b (l1 ++ l2) b = _
      rw [update_self, append_nil]
    · exact hn x ((how x).mpr hx)
    · change Detached f _ b (update chain b (l1 ++ l2) b) i
      rwa [update_self]
  | unlinkClear b i o list =>
    obtain ⟨hrs, ⟨l, hls, how, hnd⟩, hb, hd⟩ := hat
    cases he
    refine ⟨_, _, h.clear hpc rfl nofun hb ((how i).mpr mem_cons_self) hd
      (h.locks.move (hpc ▸ rfl) (hpc ▸ rfl)) rfl ⟨hrs, l, ?_, how, hnd⟩⟩
    exact hls.update_of_notMem (nodup_cons.mp hnd).1 none
  | unlinkPush b i o list =>
    obtain ⟨hrs, l, hls, how, hnd⟩ := hat
    cases he
    refine ⟨_, _, h.setNext { pc := hpc } ((how i).mpr mem_cons_self) list ⟨hrs, i :: l, ?_, how, hnd⟩⟩
    exact hls.cons (nodup_cons.mp hnd).1
  | cleanup o =>
    obtain ⟨l, hls, how, hnd⟩ := hat
    cases o with
    | none =>
      cases he
      obtain rfl : l = [] := hls.unique rfl
      exact ⟨_, _, h.goto { pc := hpc } how⟩
    | some i =>
      cases he
      obtain ⟨l, rfl⟩ : ∃ l', l = i :: l' := List.head?_eq_some_iff.mp hls.head.symm
      exact ⟨_, _, h.goto { pc := hpc } ⟨l, hls.2, how, hnd⟩⟩
  | cleanNull i o =>
    obtain ⟨l, hls, how, hnd⟩ := hat
    cases he
    refine ⟨_, _, h.setNext { pc := hpc } ((how i).mpr mem_cons_self) none ⟨l, ?_, how, hnd⟩⟩
    exact hls.update_of_notMem (nodup_cons.mp hnd).1 none
  | cleanRefrele i o =>
    obtain ⟨l, hls, how, hnd⟩ := hat
    obtain ⟨ht, hnl⟩ := nodup_cons.mp hnd
    obtain rfl := some.inj he
    refine ⟨chain, _, h.drop { pc := hpc } how mem_cons_self (Nat.lt_of_succ_lt (hir i))
      fun hu => ⟨l, hls, fun x => (hu x).trans ?_, hnl⟩⟩
    change x ∈ i :: l ∧ x ≠ i ↔ x ∈ l
    rw [mem_cons]
    refine ⟨fun ⟨hx, hxi⟩ => hx.resolve_left hxi, fun hx => ⟨.inr hx, ?_⟩⟩
    rintro rfl
    exact ht hx

end

variable [DecidableEq A]

theorem Good.step (h : Good f w) (hs : Step f w w') : Good f w' := by
  obtain ⟨chain, phase, h⟩ := h
  obtain ⟨e, ⟨hr, hb, hd⟩, he⟩ := hs
  cases e with
  | add t i =>
    obtain ⟨hc, ⟨⟩⟩ := ite_none_right_eq_some.mp he
    exact ⟨chain, _, h.add hc.1 hc.2⟩
  | lookup t b =>
    obtain ⟨hc, ⟨⟩⟩ := ite_none_right_eq_some.mp he
    have hat : At f (w.view chain phase) t .idle := hc.1 ▸ h.inside t
    exact ⟨_, _, h.turn hc.1 rfl nofun
      (h.locks.enterRead hc.2 (by rw [hc.1]; rfl) rfl (by rw [hc.1]; rfl)) rfl hat⟩
  | found t o =>
    rw [exec] at he
    split at he
    next b hpc =>
      have hat : At f (w.view chain phase) t (.looking b) := hpc ▸ h.inside t
      cases o with
      | none =>
        cases he
        exact ⟨_, _, h.goto ⟨hpc, rfl, nofun, rfl, rfl, rfl⟩ hat⟩
      | some i =>
        rw [lookFound] at he
        split at he
        next hl =>
          cases he
          rw [World.live, Bool.and_eq_true] at hl
          have hmem : i ∈ chain b := Hlists.mem_of_find (h.forward b) (eq_of_beq hl.2)
          refine ⟨_, _, h.refhold (p := .lookExit b) ⟨hpc, rfl, nofun, rfl, rfl, rfl⟩ ?_ (hr i) (.inr (.inl ?_)) hat⟩
          · rw [h.sorted.phase hmem]
            trivial
          · rw [h.sorted.home b i hmem]
            exact (h.locks.reading t b).mp (hpc ▸ rfl)
        · cases he
    · cases he
  | walk t b =>
    obtain ⟨hc, ⟨⟩⟩ := ite_none_right_eq_some.mp he
    exact ⟨_, _, h.walk hc.1 (World.free_iff.mp hc.2).1 (hb b)⟩
  | visit t =>
    rw [exec] at he
    split at he
    next b i hpc =>
      cases he
      obtain ⟨ho, hmem⟩ : At f (w.view chain phase) t (.walking b (some i)) := hpc ▸ h.inside t
      exact ⟨_, _, h.goto ⟨hpc, rfl, nofun, rfl, rfl, rfl⟩ ⟨ho, ⟨rfl, hmem i rfl⟩, nofun⟩⟩
    · cases he
  | delete t i =>
    obtain ⟨hc, ⟨⟩⟩ := ite_none_right_eq_some.mp he
    have hat : At f (w.view chain phase) t .idle := hc.1 ▸ h.inside t
    exact ⟨_, _, h.goto ⟨hc.1, rfl, nofun, rfl, rfl, rfl⟩ ⟨hat, trivial, fun _ => .inl hc.2⟩⟩
  | refhold t i =>
    obtain ⟨hc, ⟨⟩⟩ := ite_none_right_eq_some.mp he
    have hat : At f (w.view chain phase) t .idle := hc.1 ▸ h.inside t
    have hin := h.refhold (p := .idle) ⟨hc.1, rfl, nofun, rfl, rfl, rfl⟩ (h.counts.placed t i hc.2) (hr i) (.inl hc.2) hat
    have hm : (ireRefhold w t i).goto t .idle = ireRefhold w t i := by
      rw [World.goto, update_eq_self_iff.mpr]
      exact hc.1.symm
    exact ⟨_, _, hm ▸ hin⟩
  | refrele t i =>
    obtain ⟨hc, he⟩ := ite_none_right_eq_some.mp he
    obtain rfl := some.inj he
    exact ⟨_, _, h.refrele hc.1 hc.2 (Nat.lt_of_succ_lt (hr i))⟩
  | step t => exact h.goOn hb hr (hd t rfl) he

/-! ### What is promised -/

/-- The entry is on a list that starts at a pointer. -/
def World.Listed (w : World T I B) (o : Option I) (i : I) : Prop := ∃ l, Chain.Spells w.links.next o l ∧ i ∈ l

/-- The thread has taken the entry off its chain and is going to drop the reference of the table. -/
def World.Owes (w : World T I B) (t : T) (i : I) : Prop :=
  match w.pc t with
  | .delClear _ j _ | .delRefrele _ j => i = j
  | .unlinking _ _ list | .unlinkOut _ _ _ list | .cleanup list => w.Listed list i
  | .unlinkClear _ j _ list | .unlinkPush _ j _ list | .cleanNull j list | .cleanRefrele j list =>
    i = j ∨ w.Listed list i
  | _ => False

/-- With the lives that the marks of a run tell: the chains hold the entries that are linked, these have not lost their
last reference, and the reference of the table to one that is off its chain is going to be dropped by one thread, which
waits for nothing. -/
structure Released (f : Fields I B A) (w : World T I B) (life : I → Life) : Prop where
  lawful : Lawful w.trace life
  chains : ∀ b, ∃ l, Chain.Spells w.links.next (w.links.head b) l ∧ ∀ i, i ∈ l ↔ life i = .linked ∧ f.home i = b
  counted : ∀ i, life i = .linked → 0 < w.ireRefcnt i
  owed : ∀ i, life i = .unlinked ↔ ∃ t, w.Owes t i
  one : ∀ t u i, w.Owes t i → w.Owes u i → t = u
  enabled : ∀ t i, w.Owes t i → (exec f w (.step t)).isSome

omit [DecidableEq T] [DecidableEq A] in
theorem Inv.owes_iff (h : Inv f w chain phase) : w.Owes t i ↔ phase i = .unlinked t := by
  have hn : (w.view chain phase).Owed t [] → (False ↔ phase i = .unlinked t) := fun ho =>
    ⟨False.elim, fun hi => absurd ((ho i).mp hi) not_mem_nil⟩
  have hon : ∀ j, (w.view chain phase).Owed t [j] → (i = j ↔ phase i = .unlinked t) := fun j ho =>
    mem_singleton.symm.trans (ho i).symm
  have hs : ∀ o, (w.view chain phase).Listed t [] o → (w.Listed o i ↔ phase i = .unlinked t) := by
    rintro o ⟨l, hl, ho, -⟩
    refine Iff.trans ⟨fun ⟨l', hl', hi⟩ => ?_, fun hi => ⟨l, hl, hi⟩⟩ (ho i).symm
    rwa [hl'.unique hl] at hi
  have hc : ∀ j o, (w.view chain phase).Listed t [j] o → (i = j ∨ w.Listed o i ↔ phase i = .unlinked t) := by
    rintro j o ⟨l, hl, ho, -⟩
    refine Iff.trans ?_ (mem_cons.symm.trans (ho i).symm)
    refine or_congr_right ⟨fun ⟨l', hl', hi⟩ => ?_, fun hi => ⟨l, hl, hi⟩⟩
    rwa [hl'.unique hl] at hi
  have hat := h.inside t
  rw [World.Owes]
  cases hpc : w.pc t <;> rw [hpc] at hat
  case idle | addExit | looking | lookExit | walkStart => exact hn hat
  case addEnter | adding | addDup | linking | linked | bucketed | counting => exact hn hat.1
  case walking | del | discard | delEnter | delUnlink => exact hn hat.1
  case delClear | delRefrele => exact hon _ hat.1
  case unlinking | unlinkOut => exact hs _ hat.2
  case unlinkClear => exact hc _ _ hat.2.1
  case unlinkPush => exact hc _ _ hat.2
  case cleanup => exact hs _ hat
  case cleanNull | cleanRefrele => exact hc _ _ hat

theorem World.Owes.enabled (h : w.Owes t i) : (exec f w (.step t)).isSome := by
  rw [World.Owes] at h
  rw [exec]
  cases hpc : w.pc t <;> rw [hpc] at h <;> first | exact h.elim | rfl | skip
  case unlinking b o list => cases o <;> rfl
  case cleanup o => cases o <;> rfl

theorem Inv.released (h : Inv f w chain phase) : Released f w fun i => (phase i).life where
  lawful := h.lawful
  chains b := by
    refine ⟨chain b, h.forward b, fun i => ⟨fun hi => ?_, fun ⟨hi, hb⟩ => ?_⟩⟩
    · exact ⟨congrArg Phase.life (h.sorted.phase hi), h.sorted.home b i hi⟩
    · rw [← hb, ← h.sorted.linked]
      cases hp : phase i <;> rw [hp] at hi <;> first | rfl | cases hi
  counted i hi := by
    have hp : phase i = .linked := by
      cases hp : phase i <;> rw [hp] at hi <;> first | rfl | cases hi
    rw [h.counts.count, hp]
    exact Nat.add_pos_left Nat.one_pos _
  owed i := by
    constructor
    · intro hi
      cases hp : phase i with
      | unlinked t => exact ⟨t, h.owes_iff.mpr hp⟩
      | absent | created | linked | dropped | discarded =>
        rw [hp] at hi
        cases hi
    · rintro ⟨t, ht⟩
      exact congrArg Phase.life (h.owes_iff.mp ht)
  one t u i ht hu := by
    injection (h.owes_iff.mp ht).symm.trans (h.owes_iff.mp hu)
  enabled _ _ h := h.enabled

/-- Entries are unlinked and released as promised in every run in which no entry is deleted between the store that puts
it on its chain and the store of its bucket. -/
theorem ire_released (hr : Reachable Init (Step f) w) : ∃ life, Released f w life := by
  obtain ⟨chain, phase, h⟩ :=
    hr.invariant (fun _ h => h.good) fun _ _ h hs => h.step hs
  exact ⟨_, h.released⟩

omit [DecidableEq T] [DecidableEq A] in
/-- What there is to count is at most the references and the holders. -/
theorem Good.orderly (h : Good f w) {e : Event T I B} (hr : w.refs.length + 2 < 2 ^ 32)
    (hh : ∀ b, (w.holders b).length + 1 < 2 ^ 32)
    (hd : ∀ t, e = .step t → ∀ k i, w.pc t = .del k i → ∀ u, w.pc u ≠ .linked i) : Orderly w e := by
  obtain ⟨chain, phase, h⟩ := h
  refine ⟨fun i => ?_, fun b => ?_, hd⟩
  · have hc : w.refs.countP (·.2 = i) ≤ w.refs.length := countP_le_length
    have hb : (phase i).base ≤ 1 := by
      cases phase i <;> simp [Phase.base]
    rw [h.counts.count]
    omega
  · rw [h.walks.count]
    exact hh b

end Steps

/-- Entries of one bucket, all with the same address, none of which agree. -/
def oneBucket : Fields ℕ Unit Unit := ⟨fun _ => (), fun _ => (), fun _ _ => false⟩

def empty : World Bool ℕ Unit where
  links := ⟨fun _ => none, fun _ => none, fun _ => none⟩
  writer := fun _ => none
  readers := fun _ => []
  irbRefcnt := fun _ => 0
  irbCondemned := fun _ => false
  ireBucket := fun _ => none
  ireCondemned := fun _ => false
  ireRefcnt := fun _ => 0
  heap := []
  holders := fun _ => []
  refs := []
  pc := fun _ => .idle
  trace := []

theorem init_empty : Init empty := ⟨rfl, rfl, rfl, rfl, rfl, rfl, rfl, rfl, rfl, rfl, rfl⟩

/-- No entry that is deleted lacks its bucket. -/
def stored (w : World Bool ℕ Unit) : Event Bool ℕ Unit → Bool
  | .step t =>
    match w.pc t with
    | .del _ i => decide (w.pc true ≠ .linked i ∧ w.pc false ≠ .linked i)
    | _ => true
  | _ => true

/-- A step of one of the two threads that meets the condition on a run. -/
def orderlyExec (w : World Bool ℕ Unit) (e : Event Bool ℕ Unit) : Option (World Bool ℕ Unit) :=
  if stored w e = true ∧ w.refs.length + (w.holders ()).length < 9 then exec oneBucket w e else none

theorem reachable_of_orderlyExec {w w' : World Bool ℕ Unit} {es : List (Event Bool ℕ Unit)}
    (hr : Reachable Init (Step oneBucket) w) (h : runList orderlyExec w es = some w') :
    Reachable Init (Step oneBucket) w' := by
  induction es generalizing w with
  | nil =>
    cases h
    exact hr
  | cons e es ih =>
    obtain ⟨w1, h1, h2⟩ := bind_eq_some_iff.mp h
    rw [orderlyExec] at h1
    split at h1
    next hc =>
      have hg : Good oneBucket w := hr.invariant (fun _ h => h.good) fun _ _ h hs => h.step hs
      have hh : (w.holders ()).length + 1 < 2 ^ 32 := by omega
      refine ih (hr.next ⟨e, hg.orderly (by omega) (fun _ => hh) ?_, h1⟩) h2
      rintro t rfl k i hpc u
      have hst := hc.1
      rw [stored, hpc] at hst
      obtain ⟨ht, hf⟩ := of_decide_eq_true hst
      cases u
      · exact hf
      · exact ht
    · cases h1

/-- A walker deletes an entry while a thread has a reference to it, takes it off its chain at the end of the walk, and
the thread drops its reference. -/
theorem ire_released_walk : ∃ w : World Bool ℕ Unit, Reachable Init (Step oneBucket) w ∧
    w.trace = [.inserted 1, .unlinked 1 [], .dropped 1, .inactive 1] ∧ ∃ life, Released oneBucket w life := by
  have hn : runList orderlyExec empty (.add false 1 :: (List.replicate 7 (.step false) ++ [.walk true (), .step true,
    .visit true] ++ List.replicate 13 (.step true) ++ [.refrele false 1])) = some _ := rfl
  have hr := reachable_of_orderlyExec (.start init_empty) hn
  exact ⟨_, hr, by decide, ire_released hr⟩

/-- A walker deletes an entry that is on its chain while its bucket has not been stored: it loses its last reference and
stays on the chain. -/
theorem inactive_on_chain : Init empty ∧ ∃ w : World Bool ℕ Unit,
    runList (exec oneBucket) empty [.walk true (), .add false 1, .step false, .step false, .step false, .step true,
      .visit true, .step true, .step true] = some w ∧
    w.links.head () = some 1 ∧ w.ireRefcnt 1 = 0 ∧ w.trace = [.inserted 1, .inactive 1] ∧
    ¬ ∃ life, Released oneBucket w life := by
  refine ⟨init_empty, _, rfl, rfl, rfl, rfl, ?_⟩
  rintro ⟨life, hl⟩
  have hn : (none : Option (ℕ → Life)) = some life := hl.lawful
  cases hn

end Sol8.Inet.IreRefs
