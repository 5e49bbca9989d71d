import Sol8.Inet.IreRefsInv

/-! The invariant of the references to routes, and what each access to the shared data does to it. -/

namespace Sol8.Inet.IreRefs

open Function Sol8.Lib List

variable {T I B A : Type}

def World.view (w : World T I B) (chain : B → List I) (phase : I → Phase T) : View T I B :=
  ⟨w.links, w.holders, w.refs, chain, phase⟩

structure Entries (f : Fields I B A) (links : Hlists B I) (bucket : I → Option B) (heap : List I) (pc : T → Pc I B)
    (phase : I → Phase T) : Prop where
  fresh : ∀ i, i ∉ heap → phase i = .absent
  blank : ∀ i, phase i = .absent → links.next i = none ∧ links.back i = none
  created : ∀ i t, phase i = .created t → bucket i = none
  placed : ∀ i, (phase i).Placed → bucket i = some (f.home i) ∨ ∃ t, pc t = .linked i

structure Counts [DecidableEq I] (refcnt : I → ℕ) (refs : List (T × I)) (phase : I → Phase T) : Prop where
  count : ∀ i, refcnt i = (phase i).base + refs.countP (·.2 = i)
  placed : ∀ t i, (t, i) ∈ refs → (phase i).Placed

structure Inv [DecidableEq I] [DecidableEq B] (f : Fields I B A) (w : World T I B) (chain : B → List I)
    (phase : I → Phase T) : Prop where
  locks : RwLocks (Pc.writes f) Pc.reads w.writer w.readers w.pc
  walks : Counted Pc.walks w.holders w.irbRefcnt w.pc
  sorted : Sorted f chain phase
  forward : ∀ b, Chain.Spells w.links.next (w.links.head b) (chain b)
  full : ∀ b, (∀ t, (w.pc t).between f ≠ some b) → Full f w.links b (chain b)
  entries : Entries f w.links w.ireBucket w.heap w.pc phase
  counts : Counts w.ireRefcnt w.refs phase
  inside : ∀ t, At f (w.view chain phase) t (w.pc t)
  lawful : Lawful w.trace fun i => (phase i).life

section Steps

variable {f : Fields I B A} {w w' : World T I B} {chain chain' : B → List I} {phase phase' : I → Phase T} {t : T}
  {p q : Pc I B} {b : B} {i : I} {r : Phase T} {writer : B → Option T} {refs : List (T × I)} {refcnt : I → ℕ}
  {c : Cell B I}

section Entries

variable {links links' : Hlists B I} {bucket : I → Option B} {heap : List I} {pc : T → Pc I B}

theorem Entries.move [DecidableEq T] (h : Entries f links bucket heap pc phase) (ht : pc t = q) (hq : ∀ i, q ≠ .linked i) :
    Entries f links bucket heap (update pc t p) phase :=
  { h with
    placed := fun i hi => by
      refine (h.placed i hi).imp_right fun ⟨u, hu⟩ => ⟨u, ?_⟩
      rw [update_of_ne (fun e : u = t => hq i (ht.symm.trans (e ▸ hu))), hu] }

theorem Entries.relink (h : Entries f links bucket heap pc phase)
    (hn : ∀ i, phase i = .absent → links'.next i = links.next i)
    (hb : ∀ i, phase i = .absent → links'.back i = links.back i) : Entries f links' bucket heap pc phase :=
  { h with blank := fun i hi => ⟨(hn i hi).trans (h.blank i hi).1, (hb i hi).trans (h.blank i hi).2⟩ }

variable [DecidableEq I]

theorem Entries.rephase (h : Entries f links bucket heap pc phase) (hi : phase i ≠ .absent)
    (hr : r ≠ .absent ∧ ∀ t, r ≠ .created t) (hp : r.Placed → bucket i = some (f.home i) ∨ ∃ t, pc t = .linked i) :
    Entries f links bucket heap pc (update phase i r) := by
  have hne : ∀ x s, update phase i r x = s → r ≠ s → phase x = s := by
    intro x s hx hs
    rwa [update_of_ne fun e : x = i => hs (by rwa [e, update_self] at hx)] at hx
  refine ⟨fun x hx => ?_, fun x hx => h.blank x (hne x _ hx hr.1), fun x u hx => h.created x u (hne x _ hx (hr.2 u)),
    fun x hx => ?_⟩
  · have ha := h.fresh x hx
    rwa [update_of_ne fun e : x = i => hi (e ▸ ha)]
  · by_cases hxi : x = i
    · rw [hxi, update_self] at hx
      rw [hxi]
      exact hp hx
    · rw [update_of_ne hxi] at hx
      exact h.placed x hx

end Entries

variable [DecidableEq I]

theorem Counts.countP_eq_zero (h : Counts refcnt refs phase) (hi : ¬ (phase i).Placed) : refs.countP (·.2 = i) = 0 := by
  refine List.countP_eq_zero.mpr fun ⟨u, j⟩ hmem => ?_
  rw [decide_eq_true_iff]
  rintro rfl
  exact hi (h.placed u j hmem)

theorem life_update (q : Phase T) : (fun x => (update phase i q x).life) = update (fun x => (phase x).life) i q.life := by
  funext x
  by_cases hx : x = i
  · rw [hx, update_self, update_self]
  · rw [update_of_ne hx, update_of_ne hx]

theorem life_update_same {q : Phase T} (hq : q.life = (phase i).life) :
    (fun x => (update phase i q x).life) = fun x => (phase x).life := by
  rw [life_update, hq]
  exact update_eq_self i fun x => (phase x).life

theorem update_iff {q : Phase T} (hq : q ≠ r) (hi : phase i ≠ r) (x : I) : update phase i q x = r ↔ phase x = r := by
  by_cases hx : x = i
  · rw [hx, update_self]
    exact ⟨fun e => absurd e hq, fun e => absurd e hi⟩
  · rw [update_of_ne hx]

theorem placed_update {q : Phase T} (hq : (phase i).Placed → q.Placed) (x : I) (hx : (phase x).Placed) :
    (update phase i q x).Placed := by
  by_cases hxi : x = i
  · rw [hxi] at hx ⊢
    rw [update_self]
    exact hq hx
  · rwa [update_of_ne hxi]

theorem Counts.rephase (h : Counts refcnt refs phase) {n : ℕ}
    (hn : n = r.base + refs.countP (·.2 = i)) (hr : (phase i).Placed → r.Placed) :
    Counts (update refcnt i n) refs (update phase i r) := by
  refine ⟨fun x => ?_, fun u x hx => placed_update hr x (h.placed u x hx)⟩
  by_cases hxi : x = i
  · rw [hxi, update_self, update_self, hn]
  · rw [update_of_ne hxi, update_of_ne hxi]
    exact h.count x

theorem Counts.rephase_same (h : Counts refcnt refs phase)
    (hb : r.base = (phase i).base) (hr : (phase i).Placed → r.Placed) : Counts refcnt refs (update phase i r) := by
  have := h.rephase (n := refcnt i) (by rw [hb, h.count]) hr
  rwa [update_eq_self] at this

section

omit [DecidableEq I]

/-- The thread does not answer for an entry whose link others rely on. -/
theorem not_own (h : (∃ u, u ≠ t ∧ (phase i = .created u ∨ phase i = .unlinked u)) ∨
      (phase i = .linked ∧ writer (f.home i) ≠ some t)) :
    phase i ≠ .created t ∧ phase i ≠ .unlinked t ∧ ¬ (phase i = .linked ∧ writer (f.home i) = some t) := by
  rcases h with ⟨u, hu, h | h⟩ | ⟨h, hw⟩
  · simp [h, hu]
  · simp [h, hu]
  · simp [h, hw]

/-- A cell of a bucket that the thread has locked is none that others rely on. -/
theorem Sorted.cell_ne (h : Sorted f chain phase)
    (hc : c = .head b ∨ ∃ z ∈ chain b, c = .next z) (hb : writer b = some t) :
    (∀ b', writer b' ≠ some t → .head b' ≠ c) ∧
      ∀ x, ¬ (phase x = .linked ∧ writer (f.home x) = some t) → .next x ≠ c := by
  rcases hc with rfl | ⟨z, hz, rfl⟩
  · refine ⟨fun b' hb' e => hb' ?_, fun _ _ => nofun⟩
    injection e with e
    rw [e, hb]
  · refine ⟨fun _ _ => nofun, fun x hx e => hx ?_⟩
    injection e with e
    rw [e, h.home b z hz]
    exact ⟨h.phase hz, hb⟩

end

variable [DecidableEq T] [DecidableEq B]

/-- A thread goes on with the same locks, and was not in the middle of a change. -/
structure Turn (f : Fields I B A) (w : World T I B) (t : T) (q p : Pc I B) : Prop where
  pc : w.pc t = q
  between : q.between f = none := by rfl
  linked : ∀ i, q ≠ .linked i := by nofun
  writes : p.writes f = q.writes f := by rfl
  reads : p.reads = q.reads := by rfl
  walks : p.walks = q.walks := by rfl

namespace Inv

section

variable (h : Inv f w chain phase)
include h

theorem turn_locks (ht : Turn f w t q p) : RwLocks (Pc.writes f) Pc.reads w.writer w.readers (update w.pc t p) :=
  h.locks.move (ht.pc ▸ ht.writes) (ht.pc ▸ ht.reads)

theorem turn_walks (ht : Turn f w t q p) :
    Counted Pc.walks w.holders w.irbRefcnt (update w.pc t p) := h.walks.move (ht.pc ▸ ht.walks)

/-- The invariant after a step of `t`, from what the step does to others and to the buckets that `t` has locked. -/
theorem advance
    (e : Effect f t w.writer w.readers (w.view chain phase) (w'.view chain' phase')) (hpc : w'.pc = update w.pc t p)
    (hlc : RwLocks (Pc.writes f) Pc.reads w'.writer w'.readers w'.pc)
    (hw : Counted Pc.walks w'.holders w'.irbRefcnt w'.pc) (hs : Sorted f chain' phase')
    (hf : ∀ b, w.writer b = some t → Chain.Spells w'.links.next (w'.links.head b) (chain' b))
    (hfl : ∀ b, w.writer b = some t → p.between f ≠ some b → Full f w'.links b (chain' b))
    (hen : Entries f w'.links w'.ireBucket w'.heap w'.pc phase') (hcn : Counts w'.ireRefcnt w'.refs phase')
    (hat : At f (w'.view chain' phase') t p) (hl : Lawful w'.trace fun i => (phase' i).life) :
    Inv f w' chain' phase' where
  locks := hlc
  walks := hw
  sorted := hs
  entries := hen
  counts := hcn
  lawful := hl
  inside u := by
    rw [hpc]
    by_cases hu : u = t
    · rw [hu, update_self]
      exact hat
    · rw [update_of_ne hu]
      exact e.frame h.locks h.walks h.sorted hu (h.inside u)
  forward b := by
    by_cases hb : w.writer b = some t
    · exact hf b hb
    · have hc : chain' b = chain b := e.chain b hb
      have hh : w'.links.head b = w.links.head b := e.head b hb
      rw [hc, hh]
      exact (h.forward b).congr fun x hx => e.next_of_mem h.sorted hb x hx
  full b hn := by
    rw [hpc] at hn
    by_cases hb : w.writer b = some t
    · have ht := hn t
      rw [update_self] at ht
      exact hfl b hb ht
    · have hc : chain' b = chain b := e.chain b hb
      rw [hc]
      have hbf : ∀ u, (w.pc u).between f ≠ some b := by
        intro u
        by_cases hu : u = t
        · subst hu
          exact fun heq => hb ((h.locks.writing u b).mp (Pc.writes_of_between heq))
        · have := hn u
          rwa [update_of_ne hu] at this
      exact (h.full b hbf).congr (e.head b hb) (fun x hx => e.next_of_mem h.sorted hb x hx)
        (fun x hx => e.back x (hx ▸ hb)) (h.sorted.home b)

section

omit [DecidableEq T]

/-- A bucket that is locked by a thread which is not in the middle of a change, or that is not locked. -/
theorem full_of_writer (hb : w.writer b = some t) (ht : (w.pc t).between f ≠ some b) : Full f w.links b (chain b) := by
  refine h.full b fun u hu => ht ?_
  have hw := (h.locks.writing u b).mp (Pc.writes_of_between hu)
  obtain rfl := Option.some.inj (hb.symm.trans hw)
  exact hu

theorem full_of_free (hb : w.writer b = none) : Full f w.links b (chain b) := by
  refine h.full b fun u hu => ?_
  cases hb.symm.trans ((h.locks.writing u b).mp (Pc.writes_of_between hu))

end

/-- A step that leaves the links alone. -/
theorem calm (hl : w'.links = w.links)
    (e : Effect f t w.writer w.readers (w.view chain phase) (w'.view chain phase')) (hpc : w'.pc = update w.pc t p)
    (ho : (w.pc t).between f = none) (hlc : RwLocks (Pc.writes f) Pc.reads w'.writer w'.readers w'.pc)
    (hw : Counted Pc.walks w'.holders w'.irbRefcnt w'.pc) (hp : ∀ i, phase' i = .linked ↔ phase i = .linked)
    (hn : Entries f w'.links w'.ireBucket w'.heap w'.pc phase') (hc : Counts w'.ireRefcnt w'.refs phase')
    (hat : At f (w'.view chain phase') t p) (hlw : Lawful w'.trace fun i => (phase' i).life) :
    Inv f w' chain phase' := by
  refine h.advance e hpc hlc hw ⟨h.sorted.home, fun i => (hp i).trans (h.sorted.linked i)⟩ (fun b _ => ?_)
    (fun b hb _ => ?_) hn hc hat hlw
  · rw [hl]
    exact h.forward b
  · rw [hl]
    refine h.full_of_writer hb ?_
    rw [ho]
    exact nofun

/-- A step that changes nothing but locks and marks. -/
theorem turn {readers : B → List T} {c : B → Bool} {c' : I → Bool}
    (ht : w.pc t = q) (ho : q.between f = none) (hne : ∀ i, q ≠ .linked i)
    (hl : RwLocks (Pc.writes f) Pc.reads writer readers (update w.pc t p)) (hw : p.walks = q.walks)
    (hat : At f (w.view chain phase) t p) : Inv f { w with
      writer := writer
      readers := readers
      irbCondemned := c
      ireCondemned := c'
      pc := update w.pc t p } chain phase :=
  h.calm rfl (.refl ..) rfl (ht ▸ ho) hl (h.walks.move (ht ▸ hw)) (fun _ => .rfl) (h.entries.move ht hne)
    h.counts hat h.lawful

/-- A step that changes nothing but where the thread is. -/
theorem goto (ht : Turn f w t q p) (hat : At f (w.view chain phase) t p) : Inv f (w.goto t p) chain phase :=
  h.turn ht.pc ht.between ht.linked (h.turn_locks ht) ht.walks hat

/-! ### Adding -/

theorem add (ht : w.pc t = .idle) (hi : i ∉ w.heap) : Inv f ({ w with
      heap := i :: w.heap
      links := w.links.clear i
      ireBucket := update w.ireBucket i none
      ireCondemned := update w.ireCondemned i false
      ireRefcnt := update w.ireRefcnt i 1 }.goto t (.addEnter i)) chain (update phase i (.created t)) := by
  have ha := h.entries.fresh i hi
  have hnt : ¬ (phase i).Placed := by
    rw [ha]
    exact id
  have hw : At f (w.view chain phase) t .idle := ht ▸ h.inside t
  obtain ⟨hn, hb⟩ := h.entries.blank i ha
  have hl : w.links.clear i = w.links := by
    rw [Hlists.clear, update_eq_self_iff.mpr hn.symm, update_eq_self_iff.mpr hb.symm]
  have ho : ∀ r, r ≠ .absent → r ≠ .created t → ∀ x, update phase i (.created t) x = r ↔ phase x = r :=
    fun r hr hrt => update_iff hrt.symm (ha ▸ hr.symm)
  have hf : Effect f t w.writer w.readers (w.view chain phase)
      ⟨w.links.clear i, w.holders, w.refs, chain, update phase i (.created t)⟩ := by
    rw [hl]
    exact { Effect.refl _ _ (w.view chain phase) with
      created := fun u hu => ho (.created u) nofun fun he => hu (by injection he)
      unlinked := fun u _ => ho (.unlinked u) nofun nofun
      linked := fun x hx _ => (ho .linked nofun nofun x).mpr hx
      placed := placed_update fun hp => absurd hp hnt }
  have hen : Entries f w.links (update w.ireBucket i none) (i :: w.heap) w.pc (update phase i (.created t)) := by
    refine ⟨fun x hx => ?_, fun x hx => ?_, fun x u hx => ?_, fun x hx => ?_⟩
    · rw [mem_cons, not_or] at hx
      rw [update_of_ne hx.1]
      exact h.entries.fresh x hx.2
    · refine h.entries.blank x ?_
      rwa [update_of_ne fun e : x = i => by rw [e, update_self] at hx; cases hx] at hx
    · by_cases hxi : x = i
      · rw [hxi, update_self]
      · rw [update_of_ne hxi] at hx ⊢
        exact h.entries.created x u hx
    · have hxi : x ≠ i := fun e => by
        rw [e, update_self] at hx
        exact hx
      rw [update_of_ne hxi] at hx ⊢
      exact h.entries.placed x hx
  have hc : Counts (update w.ireRefcnt i 1) w.refs (update phase i (.created t)) := by
    refine h.counts.rephase ?_ fun hp => absurd hp hnt
    rw [h.counts.countP_eq_zero hnt]
    rfl
  refine h.calm (p := .addEnter i) hl hf rfl (ht ▸ rfl)
    (h.locks.move (ht ▸ rfl) (ht ▸ rfl)) (h.walks.move (ht ▸ rfl))
    (ho .linked nofun nofun) ?_ hc ⟨fun x => ?_, update_self ..⟩ ?_
  · rw [show World.links _ = w.links from hl]
    exact hen.move ht nofun
  · exact (ho (.unlinked t) nofun nofun x).trans (hw x)
  · rw [life_update_same (ha ▸ rfl)]
    exact h.lawful

/-! ### References -/

/-- A reference is made by a thread that has one, or that has locked the bucket. -/
theorem refhold (ht : Turn f w t q p) (hp : (phase i).Placed) (hmax : w.ireRefcnt i + 1 < 2 ^ 32)
    (hg : (t, i) ∈ w.refs ∨ t ∈ w.readers (f.home i) ∨ w.writer (f.home i) = some t)
    (hat : At f ((ireRefhold w t i).view chain phase) t p) : Inv f ((ireRefhold w t i).goto t p) chain phase := by
  have hr : ∀ u, u ≠ t → ∀ x, (u, x) ∈ (t, i) :: w.refs ↔ (u, x) ∈ w.refs := by
    intro u hu x
    rw [mem_cons, or_iff_right fun e => hu (congrArg Prod.fst e)]
  have hc : ∀ x, (t, x) ∈ (t, i) :: w.refs →
      (t, x) ∈ w.refs ∨ t ∈ w.readers (f.home x) ∨ w.writer (f.home x) = some t := by
    intro x hx
    rcases mem_cons.mp hx with he | hx
    · obtain rfl : x = i := congrArg Prod.snd he
      exact hg
    · exact .inl hx
  refine h.calm (p := p) rfl ?_ rfl (ht.pc ▸ ht.between) (h.turn_locks ht) (h.turn_walks ht) (fun _ => .rfl)
    (h.entries.move ht.pc ht.linked) ⟨fun x => ?_, fun u x hx => ?_⟩ hat h.lawful
  · exact { Effect.refl _ w.readers (w.view chain phase) with refs := hr, got := hc }
  · change update w.ireRefcnt i ((w.ireRefcnt i + 1) % 2 ^ 32) x = _ + ((t, i) :: w.refs).countP _
    rw [Nat.mod_eq_of_lt hmax, countP_cons]
    by_cases hx : x = i
    · subst hx
      rw [h.counts.count x]
      simp
      omega
    · rw [update_of_ne hx, h.counts.count x, if_neg (by simpa using Ne.symm hx)]
      omega
  · rcases mem_cons.mp hx with he | hx
    · obtain rfl : x = i := congrArg Prod.snd he
      exact hp
    · exact h.counts.placed u x hx

end

end Inv

omit [DecidableEq T] [DecidableEq B] in
theorem ireRefrele_eq {n : ℕ} (hn : w.ireRefcnt i = n + 1) (hmax : n < 2 ^ 32) : ireRefrele w i = { w with
      ireRefcnt := update w.ireRefcnt i n
      trace := w.trace ++ if n = 0 then [.inactive i] else [] } := by
  have hmod : (w.ireRefcnt i + (2 ^ 32 - 1)) % 2 ^ 32 = n := by
    rw [hn]
    omega
  rw [ireRefrele, hmod]
  split
  · rfl
  · rw [append_nil]

namespace Inv

section

variable (h : Inv f w chain phase)
include h

theorem refrele (ht : w.pc t = .idle) (hi : (t, i) ∈ w.refs)
    (hmax : w.ireRefcnt i < 2 ^ 32) : Inv f (ireRefrele { w with refs := w.refs.erase (t, i) } i) chain phase := by
  have hat : At f (w.view chain phase) t .idle := ht ▸ h.inside t
  have hp := h.counts.placed t i hi
  have hc : ∀ x, w.refs.countP (·.2 = x) = (w.refs.erase (t, i)).countP (·.2 = x) + if i = x then 1 else 0 := by
    intro x
    rw [(perm_cons_erase hi).countP_eq, countP_cons]
    simp
  obtain ⟨n, hn⟩ : ∃ n, w.ireRefcnt i = n + 1 := by
    refine ⟨w.ireRefcnt i - 1, ?_⟩
    have := h.counts.count i
    rw [hc, if_pos rfl] at this
    omega
  rw [ireRefrele_eq (w := { w with refs := w.refs.erase (t, i) }) hn (by omega)]
  refine h.calm (t := t) (p := .idle) rfl ?_ ?_ (ht ▸ rfl) h.locks h.walks (fun _ => .rfl) h.entries
    ⟨fun x => ?_, fun u x hx => h.counts.placed u x (mem_of_mem_erase hx)⟩ hat (h.lawful.inactive fun hz => ?_)
  · have hr : ∀ u, u ≠ t → ∀ x, (u, x) ∈ w.refs.erase (t, i) ↔ (u, x) ∈ w.refs := fun u hu x =>
      mem_erase_of_ne fun e => hu (congrArg Prod.fst e)
    exact { Effect.refl _ w.readers (w.view chain phase) with
      refs := hr
      got := fun x hx => .inl (mem_of_mem_erase hx) }
  · rw [← ht]
    exact (update_eq_self ..).symm
  · have hx := h.counts.count x
    rw [hc] at hx
    change update w.ireRefcnt i n x = _ + (w.refs.erase (t, i)).countP _
    by_cases hxi : x = i
    · subst hxi
      rw [if_pos rfl] at hx
      rw [update_self]
      omega
    · rw [if_neg (Ne.symm hxi)] at hx
      rw [update_of_ne hxi]
      exact hx
  · -- the reference of the table is gone as well
    have hx := h.counts.count i
    rw [hc, if_pos rfl] at hx
    have hb : (phase i).base = 0 := by omega
    cases hh : phase i with
    | absent | created | discarded =>
      rw [hh] at hp
      exact hp.elim
    | linked | unlinked =>
      rw [hh] at hb
      cases hb
    | dropped => exact .inr rfl

theorem lose (ht : Turn f w t q p) (hi : phase i = .created t ∨ phase i = .unlinked t)
    (hr : r = .dropped ∨ r = .discarded) (hpl : r.Placed ↔ (phase i).Placed) (hmax : w.ireRefcnt i < 2 ^ 32)
    {trace : List (Mark T I)} (htr : Lawful trace fun x => (update phase i r x).life)
    (hat : At f (w.view chain (update phase i r)) t p) :
    Inv f ((ireRefrele { w with trace := trace } i).goto t p) chain (update phase i r) := by
  have hb : (phase i).base = 1 ∧ r.base = 0 := by
    constructor
    · rcases hi with hi | hi <;> rw [hi] <;> rfl
    · rcases hr with rfl | rfl <;> rfl
  have hn : w.ireRefcnt i = w.refs.countP (·.2 = i) + 1 := by
    rw [h.counts.count, hb.1, Nat.add_comm]
  have ho : ∀ s, s ≠ r → s ≠ phase i → ∀ x, update phase i r x = s ↔ phase x = s :=
    fun s hs hsi => update_iff hs.symm hsi.symm
  have hne' : ∀ u, u ≠ t → .created u ≠ phase i ∧ .unlinked u ≠ phase i := by
    intro u hu
    rcases hi with hi | hi <;> rw [hi]
    · exact ⟨fun e => hu (by injection e), nofun⟩
    · exact ⟨nofun, fun e => hu (by injection e)⟩
  have hl : ∀ x, update phase i r x = .linked ↔ phase x = .linked := by
    refine ho .linked ?_ ?_
    · rcases hr with rfl | rfl <;> nofun
    · rcases hi with hi | hi <;> rw [hi] <;> nofun
  rw [ireRefrele_eq (w := { w with trace := trace }) hn (by omega)]
  refine h.calm (p := p) rfl ?_ rfl (ht.pc ▸ ht.between) (h.turn_locks ht) (h.turn_walks ht) hl
    (Entries.move ?_ ht.pc ht.linked) (h.counts.rephase (by rw [hb.2, Nat.zero_add]) hpl.mpr) hat
    (htr.inactive fun _ => ?_)
  · exact { Effect.refl _ _ (w.view chain phase) with
      created := fun u hu => ho (.created u) (by rcases hr with rfl | rfl <;> nofun) (hne' u hu).1
      unlinked := fun u hu => ho (.unlinked u) (by rcases hr with rfl | rfl <;> nofun) (hne' u hu).2
      linked := fun x hx _ => (hl x).mpr hx
      placed := placed_update hpl.mpr }
  · refine h.entries.rephase (fun ha => ?_) (by rcases hr with rfl | rfl <;> exact ⟨nofun, nofun⟩) fun hp =>
      h.entries.placed i (hpl.mp hp)
    rw [ha] at hb
    cases hb.1
  · rw [update_self]
    rcases hr with rfl | rfl
    · exact .inr rfl
    · exact .inl rfl

/-! ### Walks -/

omit [DecidableEq I] [DecidableEq T] h in
theorem effect_holders (hf : w.writer b = none) (l : List T) : Effect f t w.writer w.readers (w.view chain phase)
    ⟨w.links, update w.holders b l, w.refs, chain, phase⟩ :=
  { Effect.refl _ _ (w.view chain phase) with
    held := fun b' u _ hb' => update_of_ne (fun e : b' = b => by rw [e, hf] at hb'; cases hb') .. }

theorem walk (ht : w.pc t = .idle) (hf : w.writer b = none) (hmax : w.irbRefcnt b + 1 < 2 ^ 32) : Inv f ({ w with
      irbRefcnt := update w.irbRefcnt b ((w.irbRefcnt b + 1) % 2 ^ 32)
      holders := update w.holders b (t :: w.holders b) }.goto t (.walkStart b)) chain phase := by
  have hat : At f (w.view chain phase) t .idle := ht ▸ h.inside t
  rw [Nat.mod_eq_of_lt hmax]
  exact h.calm (p := .walkStart b) rfl (effect_holders hf _) rfl (ht ▸ rfl) (h.locks.move (ht ▸ rfl) (ht ▸ rfl))
    (h.walks.enter (ht ▸ rfl) rfl) (fun _ => .rfl) (h.entries.move ht nofun) h.counts hat h.lawful

theorem irbRefrele (ht : w.pc t = .walking b none) (hf : w.writer b = none)
    (hn : w.readers b = []) (hmax : w.irbRefcnt b < 2 ^ 32) : Inv f (irbRefrele w t b) chain phase := by
  have hat : At f (w.view chain phase) t (.walking b none) := ht ▸ h.inside t
  have hh : t ∈ w.holders b := (h.walks.inside t b).mp (ht ▸ rfl)
  have hmod : (w.irbRefcnt b + (2 ^ 32 - 1)) % 2 ^ 32 = w.irbRefcnt b - 1 := by
    have := length_pos_of_mem hh
    rw [← h.walks.count] at this
    omega
  have ho : (w.pc t).between f = none := by rw [ht]; rfl
  rw [IreRefs.irbRefrele, hmod]
  dsimp only
  split
  next hc =>
    refine h.calm (p := .unlinking b (w.links.head b) none) rfl (effect_holders hf _) rfl ho
      (h.locks.enter hf hn (ht ▸ rfl) rfl (ht ▸ rfl)) (h.walks.leave (ht ▸ rfl) rfl)
      (fun _ => .rfl) (h.entries.move ht nofun) h.counts ⟨⟨?_, [], chain b, rfl, (h.forward b).head⟩, [], rfl, ?_, ?_⟩ h.lawful
    · change update w.holders b ((w.holders b).erase t) b = []
      rw [update_self, ← length_eq_zero_iff, length_erase_of_mem hh, ← h.walks.count]
      exact hc.1
    · exact hat.1
    · exact nodup_nil
  · exact h.calm (p := .idle) rfl (effect_holders hf _) rfl ho (h.locks.move (ht ▸ rfl) (ht ▸ rfl))
      (h.walks.leave (ht ▸ rfl) rfl) (fun _ => .rfl) (h.entries.move ht nofun) h.counts hat.1 h.lawful

/-! ### Chains -/

omit [DecidableEq T] in
theorem writer_unique (hb : (w.pc t).writes f = some b) {b' : B} (hb' : w.writer b' = some t) : b' = b :=
  Option.some.inj (((h.locks.writing t b').mpr hb').symm.trans hb)

theorem prepare (ht : w.pc t = .adding i) {l1 l2 : List I}
    (hl : chain (f.home i) = l1 ++ l2) (hc : w.links.Seg (.head (f.home i)) l1 c) :
    Inv f ({ w with links := w.links.prepare c i }.goto t (.linking i c)) chain phase := by
  obtain ⟨ho, hp⟩ : At f (w.view chain phase) t (.adding i) := ht ▸ h.inside t
  have hw : (w.pc t).writes f = some (f.home i) := by rw [ht]; rfl
  have hwr := (h.locks.writing t _).mp hw
  have hf := h.full_of_writer hwr (by rw [ht]; nofun)
  have hot : i ∉ chain (f.home i) := fun hmem => by
    cases hp.symm.trans (h.sorted.phase hmem)
  have hr : ∀ x, some x = w.links.read c → x ∈ chain (f.home i) := by
    intro x hx
    rw [hl] at hf ⊢
    exact mem_append_right _ (hf.spells.mem_of_read hc hx)
  have hn : ∀ x, x ≠ i → (w.links.prepare c i).next x = w.links.next x := by
    intro x hx
    change (w.links.prepare c i).read (.next x) = _
    rw [Hlists.read_prepare, if_neg fun e => hx (by injection e)]
    rfl
  have hh : ∀ b, (w.links.prepare c i).head b = w.links.head b := by
    intro b
    change (w.links.prepare c i).read (.head b) = _
    rw [Hlists.read_prepare]
    rfl
  have hbc : ∀ x, w.writer (f.home x) ≠ some t → (w.links.prepare c i).back x = w.links.back x := by
    intro x hx
    rw [Hlists.back_prepare, if_neg fun e : x = i => hx (e ▸ hwr), if_neg]
    intro e
    exact hx (by rw [h.sorted.home _ x (hr x e)]; exact hwr)
  have hne : ∀ x, phase x ≠ .created t → x ≠ i := fun x hx e => hx (e ▸ hp)
  refine h.advance (p := .linking i c) ?_ rfl (h.locks.move hw.symm (ht ▸ rfl))
    (h.walks.move (ht ▸ rfl)) h.sorted (fun b _ => ?_) (fun b hb hnt => ?_) ?_ h.counts
    ⟨ho, hp, ?_⟩ h.lawful
  · exact { Effect.refl _ _ (w.view chain phase) with
      head := fun b _ => hh b
      next := fun x hx => hn x (hne x (not_own hx).1)
      back := hbc }
  · change Chain.Spells (w.links.prepare c i).next ((w.links.prepare c i).head b) (chain b)
    rw [hh]
    refine (h.forward b).congr fun x hx => hn x (hne x fun hcr => ?_)
    cases hcr.symm.trans (h.sorted.phase hx)
  · exact absurd (by rw [h.writer_unique hw hb]; rfl) hnt
  · have hxi : ∀ x, phase x = .absent → x ≠ i := fun x hx => hne x (by rw [hx]; nofun)
    refine (h.entries.relink (fun x hx => hn x (hxi x hx)) fun x hx => ?_).move ht nofun
    rw [Hlists.back_prepare, if_neg (hxi x hx), if_neg]
    intro e
    cases hx.symm.trans (h.sorted.phase (hr x e))
  · change Pending f (w.links.prepare c i) (f.home i) (chain (f.home i)) i c
    rw [hl] at hf hot ⊢
    exact hf.prepare hc hot

theorem link (ht : w.pc t = .linking i c) : ∃ chain' phase',
    Inv f (({ w with links := w.links.write (some i) c }.mark (.inserted i)).goto t (.linked i)) chain' phase' := by
  obtain ⟨how, hph, hpn⟩ : At f (w.view chain phase) t (.linking i c) := ht ▸ h.inside t
  obtain ⟨l1, l2, hl, hf⟩ := hpn.full
  replace hl : chain (f.home i) = l1 ++ l2 := hl
  replace hph : phase i = .created t := hph
  have hw : (w.pc t).writes f = some (f.home i) := by rw [ht]; rfl
  have hwr := (h.locks.writing t _).mp hw
  have hmem : ∀ x, x ∈ l1 ++ i :: l2 ↔ x ∈ chain (f.home i) ∨ x = i := by
    intro x
    rw [hl, perm_middle.mem_iff, mem_cons, or_comm]
  have hrd : ∀ d, d ≠ c → (w.links.write (some i) c).read d = w.links.read d := by
    intro d hd
    rw [Hlists.read_write, if_neg hd]
  obtain ⟨hh, hn⟩ := h.sorted.cell_ne hpn.cell hwr
  have ho : ∀ r, r ≠ .linked → r ≠ .created t → ∀ x, update phase i .linked x = r ↔ phase x = r :=
    fun r hr hrt => update_iff hr.symm (hph ▸ hrt.symm)
  have hln : ∀ x, update phase i .linked x = .linked ↔ phase x = .linked ∨ x = i := by
    intro x
    by_cases hx : x = i
    all_goals simp [hx]
  have hnt : ¬ (phase i).Placed := by
    rw [hph]
    exact id
  refine ⟨update chain (f.home i) (l1 ++ i :: l2), update phase i .linked, h.advance (p := .linked i) ?_ rfl
    (h.locks.move hw.symm (ht ▸ rfl)) (h.walks.move (ht ▸ rfl)) ⟨fun b x hx => ?_, fun x => ?_⟩
    (fun b hb => ?_) (fun b hb _ => ?_) ?_ (h.counts.rephase_same (hph ▸ rfl) fun hp => absurd hp hnt)
    ⟨fun x => ?_, update_self .., fun u hu => hnt (h.counts.placed u i hu)⟩ ?_⟩
  · exact { Effect.refl _ _ (w.view chain phase) with
      created := fun u hu => ho (.created u) nofun fun e => hu (by injection e)
      unlinked := fun u _ => ho (.unlinked u) nofun nofun
      linked := fun x hx _ => (hln x).mpr (.inl hx)
      placed := placed_update fun hp => absurd hp hnt
      chain := fun b hb => update_of_ne (fun e : b = f.home i => hb (e ▸ hwr)) ..
      walked := fun b _ => by
        change chain b ⊆ update chain (f.home i) (l1 ++ i :: l2) b
        by_cases hb : b = f.home i
        · rw [hb, update_self]
          exact fun x hx => (hmem x).mpr (.inl hx)
        · rw [update_of_ne hb]
          exact List.Subset.refl _
      head := fun b hb => hrd (.head b) (hh b hb)
      next := fun x hx => hrd (.next x) (hn x (not_own hx).2.2)
      back := fun x _ => congrFun (Hlists.back_write _) x }
  · by_cases hb : b = f.home i
    · rw [hb, update_self, hmem] at hx
      rcases hx with hx | rfl
      · rw [h.sorted.home _ x hx, hb]
      · exact hb.symm
    · rw [update_of_ne hb] at hx
      exact h.sorted.home b x hx
  · rw [hln, h.sorted.linked]
    by_cases hb : f.home x = f.home i
    · rw [hb, update_self, hmem]
    · rw [update_of_ne hb, or_iff_left fun e : x = i => hb (e ▸ rfl)]
  · obtain rfl := h.writer_unique hw hb
    rw [update_self]
    exact hf.spells.chain
  · obtain rfl := h.writer_unique hw hb
    rw [update_self]
    exact hf
  · refine ((h.entries.relink (fun x hx => ?_) fun x _ => congrFun (Hlists.back_write _) x).move ht nofun).rephase
      (by rw [hph]; nofun) ⟨nofun, nofun⟩ fun _ => .inr ⟨t, update_self ..⟩
    exact hrd (.next x) (hn x fun hc => by cases hx.symm.trans hc.1)
  · exact (ho (.unlinked t) nofun nofun x).trans (how x)
  · rw [life_update]
    exact h.lawful.snoc (if_pos (congrArg Phase.life hph))

theorem bucket (ht : w.pc t = .linked i) :
    Inv f ({ w with ireBucket := update w.ireBucket i (some (f.home i)) }.goto t (.bucketed i)) chain phase := by
  have hat : At f (w.view chain phase) t (.linked i) := ht ▸ h.inside t
  refine h.calm (p := .bucketed i) rfl (.refl ..) rfl (ht ▸ rfl)
    (h.locks.move (ht ▸ rfl) (ht ▸ rfl)) (h.walks.move (ht ▸ rfl)) (fun _ => .rfl)
    ⟨h.entries.fresh, h.entries.blank, fun x u hx => ?_, fun x hx => ?_⟩ h.counts hat h.lawful
  · change update w.ireBucket i _ x = none
    rw [update_of_ne fun e : x = i => by rw [e] at hx; cases hx.symm.trans hat.2.1]
    exact h.entries.created x u hx
  · change update w.ireBucket i _ x = _ ∨ ∃ u, update w.pc t (.bucketed i) u = .linked x
    by_cases hxi : x = i
    · exact .inl (by rw [hxi, update_self])
    · rw [update_of_ne hxi]
      refine (h.entries.placed x hx).imp_right fun ⟨u, hu⟩ => ⟨u, ?_⟩
      rw [update_of_ne, hu]
      rintro rfl
      rw [ht] at hu
      injection hu with hu
      exact hxi hu.symm

theorem takeOff (ht : Turn f w t q p) (hwt : q.writes f = some b) {l1 l2 : List I}
    (hl : chain b = l1 ++ i :: l2) (hhl : w.holders b = []) (hpb : p.between f = some b)
    (hat : f.home i = b → Detached f (w.links.detach i) b (l1 ++ l2) i →
      (∀ l : List I, (∀ x, phase x = .unlinked t ↔ x ∈ l) →
        ∀ x, update phase i (.unlinked t) x = .unlinked t ↔ x ∈ i :: l) →
      (∀ x, phase x = .unlinked t → (w.links.detach i).next x = w.links.next x) →
      At f ⟨w.links.detach i, w.holders, w.refs, update chain b (l1 ++ l2), update phase i (.unlinked t)⟩ t p) :
    Inv f ((takeOff w i b).goto t p) (update chain b (l1 ++ l2)) (update phase i (.unlinked t)) := by
  rw [← ht.pc] at hwt
  have hi : i ∈ chain b := by
    rw [hl]
    exact mem_append_right _ mem_cons_self
  have hh := h.sorted.home b i hi
  have hp := h.sorted.phase hi
  have hwr : w.writer b = some t := (h.locks.writing t b).mp hwt
  have hf := h.full_of_writer hwr (by rw [ht.pc, ht.between]; nofun)
  rw [hl] at hf
  have hmem : ∀ x, x ∈ l1 ++ l2 ↔ x ∈ chain b ∧ x ≠ i := by
    intro x
    rw [hl, perm_middle.mem_iff, mem_cons]
    exact ⟨fun hx => ⟨.inr hx, fun e => hf.detach.out (e ▸ hx)⟩, fun ⟨hx, hxi⟩ => hx.resolve_left hxi⟩
  obtain ⟨c, hc, hk⟩ := hf.spells.back
  have hrd : ∀ d, d ≠ c → (w.links.detach i).read d = w.links.read d := by
    intro d hd
    rw [Hlists.read_detach hk, if_neg hd]
  obtain ⟨hhd, hcl⟩ := h.sorted.cell_ne
    (hc.cell.imp_right fun ⟨z, hz, heq⟩ => ⟨z, hl ▸ mem_append_left _ hz, heq⟩) hwr
  have hn : ∀ x, ¬ (phase x = .linked ∧ w.writer (f.home x) = some t) →
      (w.links.detach i).next x = w.links.next x := fun x hx => hrd (.next x) (hcl x hx)
  have hbc : ∀ x, x ∉ chain b → (w.links.detach i).back x = w.links.back x := by
    intro x hx
    rw [Hlists.back_detach hk, if_neg]
    intro e
    refine hx ?_
    rw [hl]
    exact mem_append_right _ (mem_cons_of_mem i (hf.spells.mem_of_next e))
  have ho : ∀ r, r ≠ .linked → r ≠ .unlinked t → ∀ x, update phase i (.unlinked t) x = r ↔ phase x = r :=
    fun r hr hrt => update_iff hrt.symm (hp ▸ hr.symm)
  have hln : ∀ x, update phase i (.unlinked t) x = .linked ↔ phase x = .linked ∧ x ≠ i := by
    intro x
    by_cases hx : x = i <;> simp [hx]
  have hun : ∀ l : List I, (∀ x, phase x = .unlinked t ↔ x ∈ l) →
      ∀ x, update phase i (.unlinked t) x = .unlinked t ↔ x ∈ i :: l := by
    intro l hl x
    by_cases hx : x = i
    · simp [hx]
    · simp [hx, hl]
  refine h.advance (p := p) ?_ rfl (h.turn_locks ht) (h.turn_walks ht) ⟨fun b' x hx => ?_, fun x => ?_⟩
    (fun b' hb' => ?_) (fun b' hb' hnt => ?_) (Entries.move ?_ ht.pc ht.linked)
    (h.counts.rephase_same (hp ▸ rfl) fun _ => trivial) (hat hh hf.detach hun fun x hx => ?_) ?_
  · exact { Effect.refl _ _ (w.view chain phase) with
      created := fun u _ => ho (.created u) nofun nofun
      unlinked := fun u hu => ho (.unlinked u) nofun fun e => hu (by injection e)
      linked := fun x hx hw => (hln x).mpr ⟨hx, fun e => hw (by rw [e, hh]; exact hwr)⟩
      placed := placed_update fun _ => trivial
      chain := fun b' hb' => update_of_ne (fun e : b' = b => hb' (e ▸ hwr)) ..
      walked := fun b' hb' => by
        change chain b' ⊆ update chain b (l1 ++ l2) b'
        rw [update_of_ne fun e : b' = b => hb' (e ▸ hhl)]
        exact List.Subset.refl _
      head := fun b' hb' => hrd (.head b') (hhd b' hb')
      next := fun x hx => hn x (not_own hx).2.2
      back := fun x hx => hbc x fun hmem => hx (by rw [h.sorted.home b x hmem]; exact hwr) }
  · by_cases hb : b' = b
    · rw [hb, update_self, hmem] at hx
      rw [h.sorted.home b x hx.1, hb]
    · rw [update_of_ne hb] at hx
      exact h.sorted.home b' x hx
  · rw [hln, h.sorted.linked]
    by_cases hb : f.home x = b
    · rw [hb, update_self, hmem]
    · rw [update_of_ne hb]
      exact and_iff_left fun e => hb (e ▸ hh)
  · obtain rfl := h.writer_unique hwt hb'
    rw [update_self]
    exact hf.detach.spells.chain
  · exact absurd (by rw [h.writer_unique hwt hb', hpb]) hnt
  · refine (h.entries.relink (fun x hx => ?_) fun x hx => ?_).rephase (by rw [hp]; nofun) ⟨nofun, nofun⟩ fun _ =>
      h.entries.placed i (by rw [hp]; trivial)
    · exact hn x fun hc => by cases hx.symm.trans hc.1
    · exact hbc x fun hmem => by cases hx.symm.trans (h.sorted.phase hmem)
  · exact hn x fun hc => by cases hx.symm.trans hc.1
  · rw [life_update]
    exact h.lawful.snoc (if_pos ⟨congrArg Phase.life hp, hhl⟩)

theorem clear (ht : w.pc t = q) (hw : q.writes f = some b) (hne : ∀ i, q ≠ .linked i)
    (hb : f.home i = b) (hi : phase i = .unlinked t) (hd : Detached f w.links b (chain b) i) {c : I → Bool}
    (hl : RwLocks (Pc.writes f) Pc.reads writer w.readers (update w.pc t p)) (hp : p.walks = q.walks)
    (hat : At f ⟨w.links.clear i, w.holders, w.refs, chain, phase⟩ t p) : Inv f { w with
      links := w.links.clear i
      writer := writer
      ireCondemned := c
      pc := update w.pc t p } chain phase := by
  rw [← ht] at hw hp
  have hr : w.writer b = some t := (h.locks.writing t b).mp hw
  have hn : ∀ x, phase x ≠ .unlinked t → (w.links.clear i).next x = w.links.next x :=
    fun x hx => update_of_ne (fun e : x = i => hx (e ▸ hi)) ..
  refine h.advance (p := p) ?_ rfl hl (h.walks.move hp) h.sorted (fun b' _ => ?_) (fun b' hb' _ => ?_)
    (Entries.move ?_ ht hne) h.counts hat h.lawful
  · exact { Effect.refl _ _ (w.view chain phase) with
      head := fun _ _ => rfl
      next := fun x hx => hn x (not_own hx).2.1
      back := fun x hx => update_of_ne (fun e : x = i => hx (by rw [e, hb]; exact hr)) .. }
  · refine (h.forward b').congr fun x hx => hn x fun hu => ?_
    cases hu.symm.trans (h.sorted.phase hx)
  · obtain rfl := h.writer_unique hw hb'
    exact hd.clear
  · have hne : ∀ x, phase x = .absent → x ≠ i := fun x hx e => by
      rw [e, hi] at hx
      cases hx
    exact h.entries.relink (fun x hx => update_of_ne (hne x hx) ..) fun x hx => update_of_ne (hne x hx) ..

theorem setNext (ht : Turn f w t q p) (hi : phase i = .unlinked t) (v : Option I)
    (hat : At f ⟨{ w.links with next := update w.links.next i v }, w.holders, w.refs, chain, phase⟩ t p) :
    Inv f ((w.setNext i v).goto t p) chain phase := by
  have hn : ∀ x, phase x ≠ .unlinked t → update w.links.next i v x = w.links.next x :=
    fun x hx => update_of_ne (fun e : x = i => hx (e ▸ hi)) ..
  have ho : ∀ b', ∀ x ∈ chain b', phase x ≠ .unlinked t := fun b' x hx hu => by
    cases hu.symm.trans (h.sorted.phase hx)
  refine h.advance (p := p) ?_ rfl (h.turn_locks ht) (h.turn_walks ht) h.sorted (fun b' _ => ?_) (fun b' hb' _ => ?_)
    (Entries.move (h.entries.relink (fun x hx => hn x ?_) fun _ _ => rfl) ht.pc ht.linked) h.counts hat h.lawful
  · exact { Effect.refl _ _ (w.view chain phase) with
      head := fun _ _ => rfl
      next := fun x hx => hn x (not_own hx).2.1
      back := fun _ _ => rfl }
  · exact (h.forward b').congr fun x hx => hn x (ho b' x hx)
  · exact (h.full_of_writer hb' (by rw [ht.pc, ht.between]; nofun)).congr (m := w.links) rfl (fun x hx => hn x (ho b' x hx))
      (fun _ _ => rfl) (h.sorted.home b')
  · rw [hx]
    nofun

end

end Inv

end Steps

end Sol8.Inet.IreRefs
