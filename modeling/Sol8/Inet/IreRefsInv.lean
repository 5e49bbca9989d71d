import Sol8.Inet.IreRefs
import Sol8.Lib.Sections

/-! What holds between the steps of threads that add, find, visit and delete routes: who has which lock, what the chains
and the counters are, and what each thread may rely on where it stands. What a step of one thread does to the others is
said once, as an effect. -/

namespace Sol8.Inet.IreRefs

open Function Sol8.Lib List

/-! ### The life of an entry -/

/-- What has become of an entry, as its marks tell. -/
inductive Life
  | fresh
  | linked
  | unlinked
  | dropped
deriving DecidableEq

/-- The lives after a mark, if the mark is right for them: an entry leaves its chain while nobody holds the bucket, the
reference of the table is dropped after that, and the last reference not before that. -/
def next {T I : Type} [DecidableEq I] (life : I → Life) : Mark T I → Option (I → Life)
  | .inserted i => if life i = .fresh then some (update life i .linked) else none
  | .unlinked i walkers => if life i = .linked ∧ walkers = [] then some (update life i .unlinked) else none
  | .dropped i => if life i = .unlinked then some (update life i .dropped) else none
  | .inactive i => if life i = .fresh ∨ life i = .dropped then some life else none

/-- The marks are right, and the lives after them are these. -/
def Lawful {T I : Type} [DecidableEq I] (trace : List (Mark T I)) (life : I → Life) : Prop :=
  runList next (fun _ => .fresh) trace = some life

theorem Lawful.snoc {T I : Type} [DecidableEq I] {trace : List (Mark T I)} {life life' : I → Life} {m : Mark T I}
    (h : Lawful trace life) (hm : next life m = some life') : Lawful (trace ++ [m]) life' := by
  rw [Lawful, runList_append, h, Option.bind_some, runList, hm]
  rfl

theorem Lawful.inactive {T I : Type} [DecidableEq I] {trace : List (Mark T I)} {life : I → Life} {i : I} {n : ℕ}
    (h : Lawful trace life) (hi : n = 0 → life i = .fresh ∨ life i = .dropped) :
    Lawful (trace ++ if n = 0 then [.inactive i] else []) life := by
  split
  next hn => exact h.snoc (if_pos (hi hn))
  · rwa [append_nil]

/-- What has become of an entry, together with who answers for it. -/
inductive Phase (T : Type)
  | absent
  | created (t : T)
  | linked
  | unlinked (t : T)
  | dropped
  | discarded
deriving DecidableEq

namespace Phase

variable {T : Type}

def life : Phase T → Life
  | absent | created _ | discarded => .fresh
  | linked => .linked
  | unlinked _ => .unlinked
  | dropped => .dropped

/-- The references that no thread holds: the first one is made with the entry and becomes that of the table. -/
def base : Phase T → ℕ
  | created _ | linked | unlinked _ => 1
  | absent | dropped | discarded => 0

def Placed : Phase T → Prop
  | linked | unlinked _ | dropped => True
  | absent | created _ | discarded => False

end Phase

/-! ### Where threads stand -/

section Sections

variable {I B A : Type} {f : Fields I B A}

def Pc.writes (f : Fields I B A) : Pc I B → Option B
  | .adding i | .linking i _ | .linked i | .bucketed i | .counting i _ | .addExit i | .addDup i => some (f.home i)
  | .delUnlink _ _ b | .delClear _ _ b => some b
  | .unlinking b _ _ | .unlinkOut b _ _ _ | .unlinkClear b _ _ _ | .unlinkPush b _ _ _ => some b
  | _ => none

def Pc.reads : Pc I B → Option B
  | .looking b | .lookExit b => some b
  | _ => none

def Caller.walks : Caller I B → Option B
  | .holder => none
  | .walker b _ => some b

def Pc.walks : Pc I B → Option B
  | .walkStart b | .walking b _ => some b
  | .del k _ | .discard k _ | .delEnter k _ _ | .delUnlink k _ _ | .delClear k _ _ | .delRefrele k _ => k.walks
  | _ => none

/-- The bucket whose back pointers do not agree with its links. -/
def Pc.between (f : Fields I B A) : Pc I B → Option B
  | .linking i _ => some (f.home i)
  | .delClear _ _ b | .unlinkClear b _ _ _ => some b
  | _ => none

theorem Pc.writes_of_between {p : Pc I B} {b : B} (h : p.between f = some b) : p.writes f = some b := by
  cases p <;> first | exact h | cases h

@[simp] theorem Caller.walks_pc (k : Caller I B) : k.pc.walks = k.walks := by cases k <;> rfl

@[simp] theorem Caller.writes_pc (k : Caller I B) : k.pc.writes f = none := by cases k <;> rfl

@[simp] theorem Caller.reads_pc (k : Caller I B) : k.pc.reads = none := by cases k <;> rfl

end Sections

/-! ### Chains -/

section Chains

variable {I B A : Type} {f : Fields I B A} {m m' : Hlists B I} {b : B} {l l₁ l₂ : List I} {i : I} {c : Cell B I}

/-- The links of a bucket agree with its back pointers, and its other entries point back to nothing. -/
structure Full (f : Fields I B A) (m : Hlists B I) (b : B) (l : List I) : Prop where
  spells : m.Spells b l
  off : ∀ x, f.home x = b → x ∉ l → m.back x = none

/-- All is ready for the store that puts an entry on its chain. -/
structure Pending [DecidableEq I] [DecidableEq B] (f : Fields I B A) (m : Hlists B I) (b : B) (l : List I) (i : I)
    (c : Cell B I) : Prop where
  out : i ∉ l
  cell : c = .head b ∨ ∃ z ∈ l, c = .next z
  full : ∃ l₁ l₂, l = l₁ ++ l₂ ∧ Full f (m.write (some i) c) b (l₁ ++ i :: l₂)

/-- The entry is off the chain, and does not know it. -/
structure Detached (f : Fields I B A) (m : Hlists B I) (b : B) (l : List I) (i : I) : Prop where
  out : i ∉ l
  spells : m.Spells b l
  off : ∀ x, f.home x = b → x ∉ l → x ≠ i → m.back x = none

section

variable (hh : m'.head b = m.head b) (hn : ∀ x ∈ l, m'.next x = m.next x)
  (hb : ∀ x, f.home x = b → m'.back x = m.back x) (hl : ∀ x ∈ l, f.home x = b)
include hh hn hb hl

theorem Full.congr (h : Full f m b l) : Full f m' b l where
  spells := h.spells.congr hh hn fun x hx => hb x (hl x hx)
  off x hx hxl := (hb x hx).trans (h.off x hx hxl)

theorem Detached.congr (h : Detached f m b l i) : Detached f m' b l i where
  out := h.out
  spells := h.spells.congr hh hn fun x hx => hb x (hl x hx)
  off x hx hxl hxi := (hb x hx).trans (h.off x hx hxl hxi)

end

theorem Full.back_eq_none (h : Full f m b l) (hi : f.home i = b) : m.back i = none ↔ i ∉ l := by
  refine ⟨fun hn hmem => ?_, h.off i hi⟩
  obtain ⟨l₁, l₂, rfl⟩ := append_of_mem hmem
  obtain ⟨c, -, hc⟩ := h.spells.back
  cases hn.symm.trans hc

variable [DecidableEq I] [DecidableEq B]

theorem Pending.congr (h : Pending f m b l i c) (hh : m'.head b = m.head b)
    (hn : ∀ x, x ∈ l ∨ x = i → m'.next x = m.next x) (hb : ∀ x, f.home x = b → m'.back x = m.back x)
    (hl : ∀ x ∈ l, f.home x = b) (hi : f.home i = b) : Pending f m' b l i c := by
  obtain ⟨l₁, l₂, rfl, hf⟩ := h.full
  have hmem : ∀ x ∈ l₁ ++ i :: l₂, x ∈ l₁ ++ l₂ ∨ x = i := fun x hx =>
    (mem_cons.mp (perm_middle.mem_iff.mp hx)).symm
  refine ⟨h.out, h.cell, l₁, l₂, rfl, hf.congr ?_ (fun x hx => ?_) (fun x hx => ?_) fun x hx => ?_⟩
  · change (m'.write (some i) c).read (.head b) = (m.write (some i) c).read (.head b)
    rw [Hlists.read_write, Hlists.read_write, show m'.read (.head b) = m.read (.head b) from hh]
  · change (m'.write (some i) c).read (.next x) = (m.write (some i) c).read (.next x)
    rw [Hlists.read_write, Hlists.read_write, show m'.read (.next x) = m.read (.next x) from hn x (hmem x hx)]
  · rw [Hlists.back_write, Hlists.back_write, hb x hx]
  · rcases hmem x hx with hx | rfl
    · exact hl x hx
    · exact hi

theorem Full.prepare (h : Full f m b (l₁ ++ l₂)) (hc : m.Seg (.head b) l₁ c) (hi : i ∉ l₁ ++ l₂) :
    Pending f (m.prepare c i) b (l₁ ++ l₂) i c := by
  refine ⟨hi, ?_, l₁, l₂, rfl, h.spells.insert hc hi, fun x hx hl => ?_⟩
  · exact hc.cell.imp_right fun ⟨z, hz, heq⟩ => ⟨z, mem_append_left _ hz, heq⟩
  · rw [mem_append, mem_cons, not_or, not_or] at hl
    change (m.insert c i).back x = none
    rw [Hlists.back_insert, if_neg hl.2.1, if_neg fun e => hl.2.2 (h.spells.mem_of_read hc e)]
    exact h.off x hx fun hmem => (mem_append.mp hmem).elim hl.1 hl.2.2

theorem Full.detach (h : Full f m b (l₁ ++ i :: l₂)) : Detached f (m.detach i) b (l₁ ++ l₂) i := by
  obtain ⟨c, -, hc⟩ := h.spells.back
  refine ⟨(nodup_cons.mp (perm_middle.nodup_iff.mp h.spells.nodup)).1, h.spells.detach, fun x hx hl hxi => ?_⟩
  rw [mem_append, not_or] at hl
  rw [Hlists.back_detach hc, if_neg fun e => hl.2 (h.spells.mem_of_next e)]
  refine h.off x hx fun hmem => ?_
  rw [mem_append, mem_cons] at hmem
  exact hmem.elim hl.1 fun hor => hor.elim hxi hl.2

omit [DecidableEq B] in
theorem Detached.clear (h : Detached f m b l i) : Full f (m.clear i) b l := by
  have hne : ∀ x ∈ l, x ≠ i := fun x hx e => h.out (e ▸ hx)
  refine ⟨h.spells.congr rfl (fun x hx => update_of_ne (hne x hx) ..) fun x hx => update_of_ne (hne x hx) .., ?_⟩
  intro x hx hl
  by_cases hxi : x = i
  · rw [hxi]
    exact update_self ..
  · exact (update_of_ne hxi ..).trans (h.off x hx hl hxi)

end Chains

/-! ### What a thread relies on -/

/-- What threads rely on, with the chains and the phases of the entries. -/
structure View (T I B : Type) where
  links : Hlists B I
  holders : B → List T
  refs : List (T × I)
  chain : B → List I
  phase : I → Phase T

/-- The entries that a thread has taken off their chains and whose references it is going to drop. -/
def View.Owed {T I B : Type} (v : View T I B) (t : T) (l : List I) : Prop := ∀ i, v.phase i = .unlinked t ↔ i ∈ l

section At

variable {T I B A : Type} [DecidableEq I] [DecidableEq B]

/-- The entries that the caller goes on from. -/
def Caller.At (v : View T I B) (i : I) : Caller I B → Prop
  | .holder => True
  | .walker b j => j = i ∧ i ∈ v.chain b

/-- The rest of the chain that `ire_unlink` has not seen yet. -/
def View.Rest (v : View T I B) (b : B) (l : List I) (o : Option I) : Prop :=
  v.holders b = [] ∧ ∃ l₁ l₂, v.chain b = l₁ ++ l ++ l₂ ∧ o = l₂.head?

/-- The list that `ire_unlink` has made, with entries that are not on it yet or no longer. -/
def View.Listed (v : View T I B) (t : T) (own : List I) (o : Option I) : Prop :=
  ∃ l, Chain.Spells v.links.next o l ∧ v.Owed t (own ++ l) ∧ (own ++ l).Nodup

def At (f : Fields I B A) (v : View T I B) (t : T) : Pc I B → Prop
  | .idle | .addExit _ | .looking _ | .lookExit _ | .walkStart _ => v.Owed t []
  | .addEnter i | .adding i | .addDup i => v.Owed t [] ∧ v.phase i = .created t
  | .linking i c =>
    v.Owed t [] ∧ v.phase i = .created t ∧ Pending f v.links (f.home i) (v.chain (f.home i)) i c
  | .linked i | .bucketed i => v.Owed t [] ∧ v.phase i = .linked ∧ ∀ u, (u, i) ∉ v.refs
  | .counting i n => v.Owed t [] ∧ v.phase i = .linked ∧ (∀ u, (u, i) ∉ v.refs) ∧ n = 1
  | .walking b o => v.Owed t [] ∧ ∀ i ∈ o, i ∈ v.chain b
  | .del k i => v.Owed t [] ∧ k.At v i ∧ (k = .holder → (t, i) ∈ v.refs ∨ v.phase i = .created t)
  | .discard k i => v.Owed t [] ∧ k = .holder ∧ v.phase i = .created t
  | .delEnter k i b => v.Owed t [] ∧ k.At v i ∧ f.home i = b ∧ (v.phase i).Placed
  | .delUnlink k i b => v.Owed t [] ∧ k = .holder ∧ v.holders b = [] ∧ i ∈ v.chain b
  | .delClear k i b => v.Owed t [i] ∧ k = .holder ∧ f.home i = b ∧ Detached f v.links b (v.chain b) i
  | .delRefrele k i => v.Owed t [i] ∧ k = .holder
  | .unlinking b o list => v.Rest b [] o ∧ v.Listed t [] list
  | .unlinkOut b i o list => v.Rest b [i] o ∧ v.Listed t [] list
  | .unlinkClear b i o list =>
    v.Rest b [] o ∧ v.Listed t [i] list ∧ f.home i = b ∧ Detached f v.links b (v.chain b) i
  | .unlinkPush b i o list => v.Rest b [] o ∧ v.Listed t [i] list
  | .cleanup o => v.Listed t [] o
  | .cleanNull i o | .cleanRefrele i o => v.Listed t [i] o

/-- What a step of the thread `t` can do to what the others rely on. -/
structure Effect (f : Fields I B A) (t : T) (writer : B → Option T) (readers : B → List T) (v v' : View T I B) :
    Prop where
  created : ∀ u, u ≠ t → ∀ i, v'.phase i = .created u ↔ v.phase i = .created u
  unlinked : ∀ u, u ≠ t → ∀ i, v'.phase i = .unlinked u ↔ v.phase i = .unlinked u
  linked : ∀ i, v.phase i = .linked → writer (f.home i) ≠ some t → v'.phase i = .linked
  placed : ∀ i, (v.phase i).Placed → (v'.phase i).Placed
  chain : ∀ b, writer b ≠ some t → v'.chain b = v.chain b
  walked : ∀ b, v.holders b ≠ [] → v.chain b ⊆ v'.chain b
  head : ∀ b, writer b ≠ some t → v'.links.head b = v.links.head b
  next : ∀ i, (∃ u, u ≠ t ∧ (v.phase i = .created u ∨ v.phase i = .unlinked u)) ∨
    (v.phase i = .linked ∧ writer (f.home i) ≠ some t) → v'.links.next i = v.links.next i
  back : ∀ i, writer (f.home i) ≠ some t → v'.links.back i = v.links.back i
  refs : ∀ u, u ≠ t → ∀ i, (u, i) ∈ v'.refs ↔ (u, i) ∈ v.refs
  got : ∀ i, (t, i) ∈ v'.refs → (t, i) ∈ v.refs ∨ t ∈ readers (f.home i) ∨ writer (f.home i) = some t
  held : ∀ b u, u ≠ t → writer b = some u → v'.holders b = v.holders b

variable {f : Fields I B A} {t u : T} {writer : B → Option T} {readers : B → List T} {v v' : View T I B}

omit [DecidableEq I] [DecidableEq B] in
theorem Effect.refl (writer : B → Option T) (readers : B → List T) (v : View T I B) :
    Effect f t writer readers v v where
  created _ _ _ := .rfl
  unlinked _ _ _ := .rfl
  linked _ h _ := h
  placed _ h := h
  chain _ _ := rfl
  walked _ _ := List.Subset.refl _
  head _ _ := rfl
  next _ _ := rfl
  back _ _ := rfl
  refs _ _ _ := .rfl
  got _ h := .inl h
  held _ _ _ _ := rfl

/-- The entries on the chains are those that are linked, each on the chain of its bucket. -/
structure Sorted (f : Fields I B A) (chain : B → List I) (phase : I → Phase T) : Prop where
  home : ∀ b, ∀ i ∈ chain b, f.home i = b
  linked : ∀ i, phase i = .linked ↔ i ∈ chain (f.home i)

omit [DecidableEq I] [DecidableEq B] in
theorem Sorted.phase {chain : B → List I} {phase : I → Phase T} (h : Sorted f chain phase) {b : B} {i : I}
    (hi : i ∈ chain b) : phase i = .linked := by
  rw [h.linked, h.home b i hi]
  exact hi

namespace Effect

section

variable (e : Effect f t writer readers v v')
include e

section

omit [DecidableEq I] [DecidableEq B]

theorem owed (hu : u ≠ t) {l : List I} (h : v.Owed u l) : v'.Owed u l := fun i => (e.unlinked u hu i).trans (h i)

theorem listed (hu : u ≠ t) {own : List I} {o : Option I} (h : v.Listed u own o) : v'.Listed u own o := by
  obtain ⟨l, hl, ho, hnd⟩ := h
  refine ⟨l, hl.congr fun i hi => e.next i (.inl ⟨u, hu, .inr ?_⟩), e.owed hu ho, hnd⟩
  exact (ho i).mpr (mem_append_right own hi)

theorem rest (hu : u ≠ t) {b : B} (hb : writer b = some u) {l : List I}
    {o : Option I} (h : v.Rest b l o) : v'.Rest b l o := by
  have hne : writer b ≠ some t := by
    rw [hb]
    exact fun heq => hu (Option.some.inj heq)
  rw [View.Rest, e.chain b hne, e.held b u hu hb]
  exact h

/-- Nobody gets a reference to an entry while its bucket is locked by another thread. -/
theorem unheld (hu : u ≠ t) {i : I} (hb : writer (f.home i) = some u)
    (hr : readers (f.home i) = []) (h : ∀ x, (x, i) ∉ v.refs) (x : T) : (x, i) ∉ v'.refs := by
  intro hx
  by_cases ht : x = t
  · subst ht
    rcases e.got i hx with hx | hx | hx
    · exact h x hx
    · rw [hr] at hx
      exact absurd hx (not_mem_nil)
    · rw [hb] at hx
      exact hu (Option.some.inj hx)
  · exact h x ((e.refs x ht i).mp hx)

theorem next_of_mem (hs : Sorted f v.chain v.phase) {b : B}
    (hb : writer b ≠ some t) (i : I) (hi : i ∈ v.chain b) : v'.links.next i = v.links.next i :=
  e.next i (.inr ⟨hs.phase hi, (hs.home b i hi).symm ▸ hb⟩)

end

/-- A step of one thread leaves alone what another one relies on. -/
theorem frame {pc : T → Pc I B} {count : B → ℕ}
    (hlc : RwLocks (Pc.writes f) Pc.reads writer readers pc) (hwl : Counted Pc.walks v.holders count pc)
    (hs : Sorted f v.chain v.phase) (hu : u ≠ t) (h : At f v u (pc u)) : At f v' u (pc u) := by
  have hl : ∀ b, (pc u).writes f = some b → writer b = some u := fun b => (hlc.writing u b).mp
  have hw : ∀ b, (pc u).walks = some b → v.chain b ⊆ v'.chain b := fun b hb =>
    e.walked b (ne_nil_of_mem ((hwl.inside u b).mp hb))
  have ht : ∀ b, (pc u).writes f = some b → writer b ≠ some t := by
    intro b hb heq
    exact hu (Option.some.inj ((hl b hb).symm.trans heq))
  have hun : ∀ i, (pc u).writes f = some (f.home i) → (∀ x, (x, i) ∉ v.refs) → ∀ x, (x, i) ∉ v'.refs := by
    intro i hi
    refine e.unheld hu (hl _ hi) (hlc.excl _ ?_)
    rw [hl _ hi]
    exact nofun
  have hdt : ∀ b i, (pc u).writes f = some b → Detached f v.links b (v.chain b) i →
      Detached f v'.links b (v'.chain b) i := by
    intro b i hb hd
    have hb := ht b hb
    rw [e.chain b hb]
    refine hd.congr (e.head b hb) (e.next_of_mem hs hb) (fun x hx => e.back x ?_) (hs.home b)
    rw [hx]
    exact hb
  have hc : ∀ (k : Caller I B) i, (pc u).walks = k.walks → k.At v i → k.At v' i := by
    intro k i hk hat
    cases k with
    | holder => trivial
    | walker b j => exact ⟨hat.1, hw b hk hat.2⟩
  cases hpc : pc u <;> rw [hpc] at h hl hw ht hun hdt hc
  case idle | addExit | looking | lookExit | walkStart => exact e.owed hu h
  case addEnter i | adding i | addDup i => exact ⟨e.owed hu h.1, (e.created u hu i).mpr h.2⟩
  case linking i c =>
    obtain ⟨ho, hp, hpn⟩ := h
    refine ⟨e.owed hu ho, (e.created u hu i).mpr hp, ?_⟩
    have hb := ht (f.home i) rfl
    rw [e.chain _ hb]
    refine hpn.congr (e.head _ hb) (fun x hx => ?_) (fun x hx => e.back x (hx ▸ hb)) (hs.home _) rfl
    rcases hx with hx | rfl
    · exact e.next_of_mem hs hb x hx
    · exact e.next x (.inl ⟨u, hu, .inl hp⟩)
  case linked i | bucketed i =>
    obtain ⟨ho, hp, hr⟩ := h
    exact ⟨e.owed hu ho, e.linked i hp (ht _ rfl), hun i rfl hr⟩
  case counting i n =>
    obtain ⟨ho, hp, hr, hn⟩ := h
    exact ⟨e.owed hu ho, e.linked i hp (ht _ rfl), hun i rfl hr, hn⟩
  case walking b o => exact ⟨e.owed hu h.1, fun i hi => hw b rfl (h.2 i hi)⟩
  case del k i =>
    obtain ⟨ho, hk, hi⟩ := h
    exact ⟨e.owed hu ho, hc k i rfl hk, fun hh => (hi hh).imp (e.refs u hu i).mpr (e.created u hu i).mpr⟩
  case discard k i => exact ⟨e.owed hu h.1, h.2.1, (e.created u hu i).mpr h.2.2⟩
  case delEnter k i b =>
    obtain ⟨ho, hk, hb, hi⟩ := h
    exact ⟨e.owed hu ho, hc k i rfl hk, hb, e.placed i hi⟩
  case delUnlink k i b =>
    obtain ⟨ho, hk, hb, hi⟩ := h
    refine ⟨e.owed hu ho, hk, (e.held b u hu (hl b rfl)).trans hb, ?_⟩
    rw [e.chain b (ht b rfl)]
    exact hi
  case delClear k i b =>
    obtain ⟨ho, hk, hb, hd⟩ := h
    exact ⟨e.owed hu ho, hk, hb, hdt b i rfl hd⟩
  case delRefrele k i => exact ⟨e.owed hu h.1, h.2⟩
  case unlinking b o list => exact ⟨e.rest hu (hl b rfl) h.1, e.listed hu h.2⟩
  case unlinkOut b i o list | unlinkPush b i o list => exact ⟨e.rest hu (hl b rfl) h.1, e.listed hu h.2⟩
  case unlinkClear b i o list =>
    obtain ⟨hrs, hls, hb, hd⟩ := h
    exact ⟨e.rest hu (hl b rfl) hrs, e.listed hu hls, hb, hdt b i rfl hd⟩
  case cleanup | cleanNull | cleanRefrele => exact e.listed hu h

end

end Effect

end At

end Sol8.Inet.IreRefs
